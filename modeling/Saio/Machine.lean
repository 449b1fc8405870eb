import Saio.IndexBounds
import Saio.Interleaving
import Mathlib.Tactic

/-!
# Several processes on one kernel

The arrays of the module are global: every process of a server has its own
rings in `table`, `submitted` and `worker_wait`, at the indices that its
`this_worker_id` selects, and its calls, its wake-ups and its completion scan
go by such indices.  Nothing but the arithmetic of the indices keeps the
processes apart.

A machine has one array of workers and the user sides of all processes, as far
as their rings have a place in the arrays.  All processes run with one
configuration: the variables of the module are global, and each start of a
process sets them anew.  On non-negative descriptors every step of a process
reads and writes rings of its own set only.  What a process sees of the machine
is then a run of the process alone, in every interleaving, and what holds of
all runs of one process holds on the machine.
-/

namespace Saio

variable {κ μ : Type} {dep : Deployment κ μ} {access : FlagAccess}
  {base : ℤ → KernelWorker} {sys next : System κ μ}

/-! ## A system without the rings of others -/

namespace System

/-- The system with the workers of its own set, and those of `base`
elsewhere. -/
def only (dep : Deployment κ μ) (base : ℤ → KernelWorker)
    (sys : System κ μ) : System κ μ :=
  { sys with
    workers := fun k => if dep.InSet k then sys.workers k else base k }

section Fields

variable (dep : Deployment κ μ) (base : ℤ → KernelWorker)
  (sys : System κ μ)

@[simp] theorem only_user : (sys.only dep base).user = sys.user := rfl

@[simp] theorem only_inSegment :
    (sys.only dep base).inSegment = sys.inSegment := rfl

@[simp] theorem only_batchNum :
    (sys.only dep base).batchNum = sys.batchNum := rfl

@[simp] theorem only_memory :
    (sys.only dep base).memory = sys.memory := rfl

@[simp] theorem only_executed :
    (sys.only dep base).executed = sys.executed := rfl

end Fields

theorem only_workers {k : ℤ} (hset : dep.InSet k) :
    (sys.only dep base).workers k = sys.workers k :=
  if_pos hset

theorem only_ring {k : ℤ} (hset : dep.InSet k) :
    (sys.only dep base).ring k = sys.ring k :=
  congrArg KernelWorker.ring (only_workers hset)

theorem only_setWorker {k : ℤ} (hset : dep.InSet k)
    (worker : KernelWorker) :
    (sys.setWorker k worker).only dep base =
      (sys.only dep base).setWorker k worker := by
  unfold only setWorker
  congr 1
  funext n
  by_cases hn : n = k
  · simp [hn, hset]
  · simp [hn]

theorem only_setFlags {k : ℤ} (hset : dep.InSet k)
    (flags : BitVec 32) :
    (sys.setFlags k flags).only dep base =
      (sys.only dep base).setFlags k flags := by
  unfold setFlags
  rw [only_setWorker hset, only_workers hset]

theorem only_setControl {k : ℤ} (hset : dep.InSet k)
    (control : WorkerControl) :
    (sys.setControl k control).only dep base =
      (sys.only dep base).setControl k control := by
  unfold setControl
  rw [only_setWorker hset, only_workers hset]

theorem only_onRing {k : ℤ} (hset : dep.InSet k)
    (action : RingAction) :
    (sys.only dep base).onRing dep k action =
      (sys.onRing dep k action).map (only dep base) := by
  unfold onRing
  rw [only_ring hset, only_workers hset]
  cases (sys.ring k).step dep.toTableConfig action with
  | none => rfl
  | some ring => exact congrArg some (only_setWorker hset _).symm

theorem only_call {source : κ}
    (hsource : 0 ≤ dep.wrapper.descriptor source) :
    (sys.only dep base).call dep source =
      (sys.call dep source).map (only dep base) := by
  have hset : dep.InSet (dep.route source) := dep.inSet_ringIndex hsource
  simp only [call, only_inSegment, only_memory, only_batchNum,
    only_ring hset, only_onRing hset]
  split
  next =>
    cases sys.onRing dep (dep.route source) _ with
    | none => rfl
    | some queued => rfl
  next => rfl

/-- The library looks at the ring of its control point only. -/
theorem only_userStep (huser : sys.user.InSet dep) :
    (sys.only dep base).userStep dep access =
      (sys.userStep dep access).map (only dep base) := by
  unfold userStep
  rw [only_user]
  cases hpc : sys.user with
  | ready => rfl
  | flushWait => rfl
  | startTest j =>
      have hset : dep.InSet j := huser j (by rw [hpc]; rfl)
      simp only [only_workers hset]
      split <;> rfl
  | startSet j =>
      have hset : dep.InSet j := huser j (by rw [hpc]; rfl)
      simp only [only_workers hset, ← only_setFlags hset]
      cases access <;> rfl
  | startSetLoaded j flags =>
      have hset : dep.InSet j := huser j (by rw [hpc]; rfl)
      simp only [← only_setFlags hset]
      rfl
  | wakeupTest j =>
      have hset : dep.InSet j := huser j (by rw [hpc]; rfl)
      simp only [only_workers hset]
      split <;> rfl
  | wakeup j =>
      have hset : dep.InSet j := huser j (by rw [hpc]; rfl)
      simp only [only_workers hset, ← only_setWorker hset]
      rfl
  | startClear j =>
      have hset : dep.InSet j := huser j (by rw [hpc]; rfl)
      simp only [only_workers hset, ← only_setFlags hset]
      cases access <;> rfl
  | startClearLoaded j flags =>
      have hset : dep.InSet j := huser j (by rw [hpc]; rfl)
      simp only [← only_setFlags hset]
      rfl
  | advancing idx source entry =>
      have hset : dep.InSet idx := huser idx (by rw [hpc]; rfl)
      simp only [only_onRing hset]
      cases sys.onRing dep idx .advance <;> rfl
  | marking idx =>
      have hset : dep.InSet idx := huser idx (by rw [hpc]; rfl)
      simp only [only_onRing hset]
      cases sys.onRing dep idx .storeBusy <;> rfl

theorem only_executeEntry {k sysret : ℤ} (hset : dep.InSet k) :
    (sys.only dep base).executeEntry dep k sysret =
      (sys.executeEntry dep k sysret).map (only dep base) := by
  simp only [executeEntry, only_ring hset, only_onRing hset,
    only_memory, only_executed]
  cases sys.onRing dep k .execute with
  | none => rfl
  | some done =>
      simp only [Option.map_some, ← only_setControl hset]
      rfl

theorem only_batchStep {k sysret : ℤ} (hset : dep.InSet k) :
    (sys.only dep base).batchStep dep k sysret =
      (sys.batchStep dep k sysret).map (only dep base) := by
  simp only [batchStep, only_ring hset, only_onRing hset,
    only_executeEntry hset, ← only_setControl hset]
  split
  next => split <;> rfl
  next => rfl
  next => split <;> rfl

/-- A scan that starts at the first ring stays in the set. -/
theorem only_scanStep {k n : ℤ} (hset : dep.InSet k)
    (hfirst : k = dep.firstRing) (hn : k ≤ n) :
    (sys.only dep base).scanStep dep k n =
      (sys.scanStep dep k n).only dep base := by
  unfold scanStep
  by_cases hlast : n < k + dep.ratio
  · have hscan : dep.InSet n := by
      rw [hfirst] at hn hlast
      exact ⟨hn, hlast⟩
    simp only [hlast, if_true, only_ring hscan, ← only_setControl hset]
    split <;> rfl
  · simp only [hlast, if_false, ← only_setControl hset]
    rfl

theorem only_workerStep {k sysret : ℤ} {expired : Bool}
    (hset : dep.InSet k)
    (hscans : ∀ n, (sys.workers k).control = .scanning n →
      k = dep.firstRing ∧ k ≤ n) :
    (sys.only dep base).workerStep dep access k expired sysret =
      (sys.workerStep dep access k expired sysret).map
        (only dep base) := by
  unfold workerStep
  rw [only_workers hset]
  split
  next => exact only_batchStep hset
  next n hcontrol =>
    obtain ⟨hfirst, hn⟩ := hscans n hcontrol
    exact congrArg some (only_scanStep hset hfirst hn)
  next =>
    cases (sys.workers k).idleStep access expired with
    | none => rfl
    | some worker => exact congrArg some (only_setWorker hset _).symm

theorem only_batchFlush :
    (sys.only dep base).batchFlush = sys.batchFlush.only dep base := by
  unfold batchFlush
  rw [only_batchNum]
  split <;> rfl

/-- The scans of the set start at its first ring. -/
def ScansInSet (dep : Deployment κ μ) (sys : System κ μ) : Prop :=
  ∀ k n, dep.InSet k → (sys.workers k).control = .scanning n →
    k = dep.firstRing ∧ k ≤ n

/-- On non-negative descriptors a step reads and writes rings of its own set
only. -/
theorem only_step {action : SystemAction κ}
    (huser : sys.user.InSet dep) (hscans : sys.ScansInSet dep)
    (hcalls : sys.NonNegativeCalls dep action) :
    (sys.only dep base).step dep access action =
      (sys.step dep access action).map (only dep base) := by
  cases action with
  | batchStart =>
      simp only [step, only_user]
      split <;> rfl
  | call source =>
      simp only [step, only_user, only_call hcalls]
      split <;> rfl
  | batchFlush =>
      simp only [step, only_user, only_batchFlush]
      split <;> rfl
  | user => exact only_userStep huser
  | worker k expired sysret =>
      simp only [step]
      split
      next hset =>
        exact only_workerStep hset fun n => hscans k n hset
      next => rfl

/-- A step leaves the rings of other sets as they are: it is its own share,
whatever stands elsewhere. -/
theorem step_frame {action : SystemAction κ}
    (huser : sys.user.InSet dep) (hscans : sys.ScansInSet dep)
    (hcalls : sys.NonNegativeCalls dep action)
    (hstep : sys.step dep access action = some next) {k : ℤ}
    (hout : ¬ dep.InSet k) : next.workers k = sys.workers k := by
  have hself : sys.only dep sys.workers = sys := by
    unfold only
    simp only [ite_self]
  have hshare : (sys.only dep sys.workers).step dep access action =
      (sys.step dep access action).map (only dep sys.workers) :=
    only_step huser hscans hcalls
  rw [hself, hstep, Option.map_some, Option.some.injEq] at hshare
  rw [hshare]
  exact if_neg hout

theorem only_noOverrun {action : SystemAction κ}
    (huser : sys.user.InSet dep) (hsafe : sys.NoOverrun dep action) :
    (sys.only dep base).NoOverrun dep action := by
  intro idx hadvanced
  have hsame : idx ∈ sys.advancedRing action := hadvanced
  have hring : idx ∈ sys.user.ring := by
    unfold advancedRing at hsame
    split at hsame
    next hpc =>
      rw [hpc]
      exact hsame
    next => simp at hsame
  rw [only_ring (huser idx hring)]
  exact hsafe idx hsame

/-- What holds of a system that never leaves its set. -/
structure Confined (dep : Deployment κ μ) (sys : System κ μ) : Prop where
  user : sys.user.InSet dep
  scans : sys.ScansFromFirst dep

theorem initWorker_confined (dep : Deployment κ μ)
    (pages : ℤ → ℕ → ℕ → TableEntry) (memory : μ) :
    (dep.initWorker pages memory).Confined dep where
  user := nofun
  scans := nofun

theorem Confined.afterStep (hconfined : sys.Confined dep)
    {action : SystemAction κ} (hcalls : sys.NonNegativeCalls dep action)
    (hstep : sys.step dep access action = some next) :
    next.Confined dep where
  user := step_user_inSet hcalls hconfined.user hstep
  scans := hconfined.scans.afterMove (step_notice hstep)

theorem Confined.scansInSet
    (hconfined : (sys.only dep base).Confined dep) :
    sys.ScansInSet dep := by
  intro k n hset hcontrol
  apply hconfined.scans k n
  rwa [only_workers hset]

end System

/-! ## The machine -/

/-- What a process keeps to itself. -/
structure UserSide (κ μ : Type) where
  user : UserPc κ
  inSegment : Bool
  batchNum : ℕ
  memory : μ
  issued : List (Issued κ)
  executed : List (Executed μ)
  direct : List κ
  completions : List ℕ

def System.side (sys : System κ μ) : UserSide κ μ where
  user := sys.user
  inSegment := sys.inSegment
  batchNum := sys.batchNum
  memory := sys.memory
  issued := sys.issued
  executed := sys.executed
  direct := sys.direct
  completions := sys.completions

def UserSide.system (side : UserSide κ μ)
    (workers : ℤ → KernelWorker) : System κ μ where
  workers := workers
  user := side.user
  inSegment := side.inSegment
  batchNum := side.batchNum
  memory := side.memory
  issued := side.issued
  executed := side.executed
  direct := side.direct
  completions := side.completions

/-- The processes of a server are known by their worker ids. -/
def Deployment.ofWorker (dep : Deployment κ μ) (id : ℕ) :
    Deployment κ μ :=
  { dep with thisWorkerId := id }

/-- The sets of different ids have no ring in common. -/
theorem Deployment.ofWorker_disjoint (dep : Deployment κ μ)
    {p q : ℕ} {k : ℤ} (hp : (dep.ofWorker p).InSet k)
    (hq : (dep.ofWorker q).InSet k) : p = q := by
  have hdiv : ∀ id : ℕ, (dep.ofWorker id).InSet k →
      k / dep.ratio = id := by
    intro id hset
    have hlow : (id : ℤ) * dep.ratio ≤ k := hset.1
    have hhigh : k < (id : ℤ) * dep.ratio + dep.ratio := hset.2
    have hpos : (0 : ℤ) < dep.ratio := Int.natCast_pos.mpr dep.ratio_pos
    apply le_antisymm
    · apply Int.lt_add_one_iff.mp
      apply Int.ediv_lt_of_lt_mul hpos
      rw [Int.add_mul, Int.one_mul]
      exact hhigh
    · exact Int.le_ediv_of_mul_le hpos hlow
  exact Int.natCast_inj.mp ((hdiv p hp).symm.trans (hdiv q hq))

/-- The rings of process `id` have a place in the arrays of the module. -/
def Deployment.HasRings (dep : Deployment κ μ) (id : ℕ) : Prop :=
  (id + 1) * dep.ratio ≤ cpuNumLimit

instance (dep : Deployment κ μ) (id : ℕ) : Decidable (dep.HasRings id) :=
  inferInstanceAs (Decidable (_ ≤ _))

/-- One array of kernel workers, and the user sides of all processes. -/
structure Machine (κ μ : Type) where
  workers : ℤ → KernelWorker
  sides : ℕ → UserSide κ μ

namespace Machine

variable {machine later final : Machine κ μ}
  {pages : ℤ → ℕ → ℕ → TableEntry} {memory : ℕ → μ}
  {actions : List (ℕ × SystemAction κ)}

/-- What process `id` works on: all rings, and its own side. -/
def view (machine : Machine κ μ) (id : ℕ) : System κ μ :=
  (machine.sides id).system machine.workers

/-- A step of a process, under the configuration of all processes. -/
def step (dep : Deployment κ μ) (access : FlagAccess)
    (machine : Machine κ μ) (action : ℕ × SystemAction κ) :
    Option (Machine κ μ) :=
  if dep.HasRings action.1 then
    match (machine.view action.1).step (dep.ofWorker action.1) access
        action.2 with
    | none => none
    | some sys =>
        some ⟨sys.workers,
          Function.update machine.sides action.1 sys.side⟩
  else none

/-- Every ring of the machine is registered. -/
def init (dep : Deployment κ μ) (pages : ℤ → ℕ → ℕ → TableEntry)
    (memory : ℕ → μ) : Machine κ μ where
  workers := fun k => KernelWorker.register dep.toTableConfig (pages k)
  sides := fun id =>
    ((dep.ofWorker id).initWorker pages (memory id)).side

/-- Process `id` with the rings of its set, and the others as they were
registered. -/
def share (dep : Deployment κ μ) (pages : ℤ → ℕ → ℕ → TableEntry)
    (id : ℕ) (machine : Machine κ μ) : System κ μ :=
  (machine.view id).only (dep.ofWorker id) fun k =>
    KernelWorker.register dep.toTableConfig (pages k)

def NonNegativeCalls (dep : Deployment κ μ) (machine : Machine κ μ)
    (action : ℕ × SystemAction κ) : Prop :=
  (machine.view action.1).NonNegativeCalls (dep.ofWorker action.1)
    action.2

def NoOverrun (dep : Deployment κ μ) (machine : Machine κ μ)
    (action : ℕ × SystemAction κ) : Prop :=
  (machine.view action.1).NoOverrun (dep.ofWorker action.1) action.2

instance (dep : Deployment κ μ) (machine : Machine κ μ)
    (action : ℕ × SystemAction κ) :
    Decidable (machine.NonNegativeCalls dep action) :=
  inferInstanceAs (Decidable (System.NonNegativeCalls _ _ _))

instance (dep : Deployment κ μ) (machine : Machine κ μ)
    (action : ℕ × SystemAction κ) :
    Decidable (machine.NoOverrun dep action) :=
  inferInstanceAs (Decidable (System.NoOverrun _ _ _))

theorem share_init (dep : Deployment κ μ)
    (pages : ℤ → ℕ → ℕ → TableEntry) (memory : ℕ → μ) (id : ℕ) :
    (init dep pages memory).share dep pages id =
      (dep.ofWorker id).initWorker pages (memory id) := by
  unfold share System.only
  simp only [view, UserSide.system, init, ite_self]
  rfl

theorem step_view {id : ℕ} {action : SystemAction κ}
    (hstep : machine.step dep access (id, action) = some later) :
    dep.HasRings id ∧
      ∃ sys, (machine.view id).step (dep.ofWorker id) access action =
          some sys ∧
        later =
          ⟨sys.workers, Function.update machine.sides id sys.side⟩ := by
  obtain ⟨hrings, hstep⟩ := Option.ite_none_right_eq_some.mp hstep
  refine ⟨hrings, ?_⟩
  split at hstep
  next => simp at hstep
  next sys hsys => exact ⟨sys, hsys, (Option.some.inj hstep).symm⟩

/-- A process finds its own step in its share, and its share unchanged by the
steps of the others. -/
theorem shares (dep : Deployment κ μ) (access : FlagAccess)
    (pages : ℤ → ℕ → ℕ → TableEntry)
    {condition : ℕ → System κ μ → SystemAction κ → Prop}
    (hcalls : ∀ id sys action, condition id sys action →
      sys.NonNegativeCalls (dep.ofWorker id) action) :
    Transition.Shares (step dep access)
      (fun id => System.step (dep.ofWorker id) access)
      (share dep pages) condition
      fun id => System.Confined (dep.ofWorker id) where
  own := by
    intro machine id action later hconfined hcondition hstep
    obtain ⟨_, sys, hsys, rfl⟩ := step_view hstep
    have hcall : (machine.view id).NonNegativeCalls (dep.ofWorker id)
        action := hcalls id (machine.share dep pages id) action hcondition
    have hlocal : (machine.share dep pages id).step (dep.ofWorker id)
        access action = _ :=
      System.only_step (hconfined id).user (hconfined id).scansInSet
        hcall
    rw [hlocal, hsys]
    simp only [share, view, Function.update_self]
    rfl
  foreign := by
    intro machine id action later hconfined hcondition hstep q hq
    obtain ⟨_, sys, hsys, rfl⟩ := step_view hstep
    have huser : (machine.view id).user.InSet (dep.ofWorker id) :=
      (hconfined id).user
    have hcall : (machine.view id).NonNegativeCalls (dep.ofWorker id)
        action := hcalls id (machine.share dep pages id) action hcondition
    have hframe : ∀ k, (dep.ofWorker q).InSet k →
        sys.workers k = machine.workers k := by
      intro k hset
      apply System.step_frame huser (hconfined id).scansInSet hcall hsys
      intro hown
      exact hq (dep.ofWorker_disjoint hset hown)
    simp only [share, view, Function.update_of_ne hq, System.only,
      UserSide.system]
    congr 1
    funext k
    split
    next hset => exact hframe k hset
    next => rfl
  preserved := fun _ _ _ _ hconfined hcondition hstep =>
    hconfined.afterStep (hcalls _ _ _ hcondition) hstep

theorem init_confined (dep : Deployment κ μ)
    (pages : ℤ → ℕ → ℕ → TableEntry) (memory : ℕ → μ) (id : ℕ) :
    ((init dep pages memory).share dep pages id).Confined
      (dep.ofWorker id) := by
  rw [share_init]
  exact System.initWorker_confined _ pages _

/-- No process has left its set. -/
def AllConfined (dep : Deployment κ μ)
    (pages : ℤ → ℕ → ℕ → TableEntry) (machine : Machine κ μ) : Prop :=
  ∀ id, (machine.share dep pages id).Confined (dep.ofWorker id)

theorem AllConfined.afterStep
    (hconfined : machine.AllConfined dep pages) {id : ℕ}
    {action : SystemAction κ}
    (hcalls : machine.NonNegativeCalls dep (id, action))
    (hstep : machine.step dep access (id, action) = some later) :
    later.AllConfined dep pages :=
  (shares dep access pages
    (fun id (sys : System κ μ) action
      (hcall : sys.NonNegativeCalls (dep.ofWorker id) action) =>
        hcall)).invariant_next hconfined hcalls hstep

/-- A step of a process leaves everything outside the arrays alone. -/
theorem workers_outside (hconfined : machine.AllConfined dep pages)
    {id : ℕ} {action : SystemAction κ}
    (hcalls : machine.NonNegativeCalls dep (id, action))
    (hstep : machine.step dep access (id, action) = some later) {k : ℤ}
    (hout : k < 0 ∨ cpuNumLimit ≤ k) :
    later.workers k = machine.workers k := by
  obtain ⟨hrings, sys, hsys, rfl⟩ := step_view hstep
  have huser : (machine.view id).user.InSet (dep.ofWorker id) :=
    (hconfined id).user
  apply System.step_frame huser (hconfined id).scansInSet hcalls hsys
  intro hset
  have hplace := (dep.ofWorker id).ring_lt hrings hset
  omega

/-- In every interleaving each process runs as if it were alone, and nothing
outside the arrays of the module is ever touched. -/
theorem process_runs_alone
    (hrun : Transition.run (step dep access) (init dep pages memory)
      actions = some final)
    (hcalls : Transition.StepsMeet (step dep access)
      (NonNegativeCalls dep) (init dep pages memory) actions) :
    (∀ id, Transition.run (System.step (dep.ofWorker id) access)
        ((dep.ofWorker id).initWorker pages (memory id))
        (FifoBank.lane id actions) =
      some (final.share dep pages id)) ∧
    ∀ k : ℤ, k < 0 ∨ cpuNumLimit ≤ k →
      final.workers k =
        KernelWorker.register dep.toTableConfig (pages k) := by
  constructor
  · intro id
    have hshares := shares dep access pages
      (fun id (sys : System κ μ) action
        (hcall : sys.NonNegativeCalls (dep.ofWorker id) action) => hcall)
    have halone := hshares.run_share (init_confined dep pages memory)
      hrun hcalls id
    rw [share_init] at halone
    exact halone.1
  · intro k hout
    have hkept : ∀ (machine : Machine κ μ) (action : ℕ × SystemAction κ)
        (later : Machine κ μ),
        machine.AllConfined dep pages ∧ machine.workers k =
            KernelWorker.register dep.toTableConfig (pages k) →
          machine.NonNegativeCalls dep action →
            machine.step dep access action = some later →
              later.AllConfined dep pages ∧ later.workers k =
                KernelWorker.register dep.toTableConfig (pages k) := by
      rintro machine ⟨id, action⟩ later ⟨hconfined, hsame⟩ hcall hstep
      refine ⟨hconfined.afterStep hcall hstep, ?_⟩
      rw [workers_outside hconfined hcall hstep hout]
      exact hsame
    exact (Transition.run_invariant hkept
      ⟨init_confined dep pages memory, rfl⟩ hrun hcalls).2

/-- Two processes with one worker each; their steps alternate. -/
def alternatingWrites : List (ℕ × SystemAction RedisCall) :=
  (List.map (Prod.mk 0) (SystemAction.segmentStart oneWorkerSet)) ++
    (List.map (Prod.mk 1) (SystemAction.segmentStart oneWorkerSet)) ++
    [(0, .call ⟨4, 64, 7⟩), (1, .call ⟨4, 96, 3⟩), (1, .user),
      (0, .user), (0, .user), (1, .user)] ++
    List.map (Prod.mk 1) (SystemAction.workerSteps 1 false 3)

/-- The first process after its own steps, with nothing executed. -/
theorem alternatingWrites_alone :
    ∃ final,
      Transition.run (step ⟨oneWorkerSet, redis .x86⟩ .atomic)
        (init ⟨oneWorkerSet, redis .x86⟩ (fun _ => blankMemory)
          fun _ => ()) alternatingWrites = some final ∧
      Transition.run
        (System.step (Deployment.ofWorker
          ⟨oneWorkerSet, redis .x86⟩ 0) .atomic)
        (Deployment.initWorker (Deployment.ofWorker
          ⟨oneWorkerSet, redis .x86⟩ 0) (fun _ => blankMemory) ())
        (SystemAction.segmentStart oneWorkerSet ++
          SystemAction.wholeCall ⟨4, 64, 7⟩) =
        some (final.share ⟨oneWorkerSet, redis .x86⟩
          (fun _ => blankMemory) 0) := by
  have hrun :
      Transition.run (step ⟨oneWorkerSet, redis .x86⟩ .atomic)
        (init ⟨oneWorkerSet, redis .x86⟩ (fun _ => blankMemory)
          fun _ => ()) alternatingWrites = some _ := rfl
  exact ⟨_, hrun, (process_runs_alone hrun (by decide +kernel)).1 0⟩

/-- Runs without overrun on the machine are without overrun for every
process. -/
theorem stepsMeet_share
    (hsafe : Transition.StepsMeet (step dep access)
      (fun machine action => machine.NonNegativeCalls dep action ∧
        machine.NoOverrun dep action) (init dep pages memory) actions) :
    Transition.StepsMeet (step dep access)
      (fun machine action =>
        (machine.share dep pages action.1).NonNegativeCalls
            (dep.ofWorker action.1) action.2 ∧
          (machine.share dep pages action.1).NoOverrun
            (dep.ofWorker action.1) action.2)
      (init dep pages memory) actions := by
  have hstart : AllConfined dep pages (init dep pages memory) :=
    init_confined dep pages memory
  refine Transition.stepsMeet_of_invariant ?_ ?_ hstart hsafe
  · rintro machine ⟨id, action⟩ hconfined ⟨hcalls, hadvance⟩
    exact ⟨hcalls, System.only_noOverrun (hconfined id).user hadvance⟩
  · rintro machine ⟨id, action⟩ later hconfined ⟨hcalls, _⟩ hstep
    exact AllConfined.afterStep hconfined hcalls hstep

theorem share_implements (hshares : dep.SharesEntries)
    (hrun : Transition.run (step dep access) (init dep pages memory)
      actions = some final)
    (hsafe : Transition.StepsMeet (step dep access)
      (fun machine action => machine.NonNegativeCalls dep action ∧
        machine.NoOverrun dep action) (init dep pages memory) actions)
    (id : ℕ) :
    ∃ bank, (final.share dep pages id).Implements (dep.ofWorker id)
      bank := by
  have hparts := shares dep access pages
    (fun id (sys : System κ μ) action
      (hcondition : sys.NonNegativeCalls (dep.ofWorker id) action ∧
        sys.NoOverrun (dep.ofWorker id) action) => hcondition.1)
  have halone := hparts.run_share (init_confined dep pages memory)
    hrun (stepsMeet_share hsafe) id
  rw [share_init] at halone
  exact System.run_implements hshares halone.1
    (halone.2.imp fun _ _ hcondition => hcondition.2)

/-- The worker of a ring has executed a beginning of the calls that the process
it belongs to has issued to the ring, in this order, and no other process has
issued anything to it. -/
theorem rings_deliver_to_owner (hshares : dep.SharesEntries)
    (hrun : Transition.run (step dep access) (init dep pages memory)
      actions = some final)
    (hsafe : Transition.StepsMeet (step dep access)
      (fun machine action => machine.NonNegativeCalls dep action ∧
        machine.NoOverrun dep action) (init dep pages memory) actions)
    {id : ℕ} {k : ℤ} (hset : (dep.ofWorker id).InSet k) :
    (final.workers k).ring.executed =
        FifoBank.lane k (final.view id).taken ∧
      FifoBank.lane k (final.view id).taken <+:
        FifoBank.lane k (final.view id).sent ∧
      ∀ other, other ≠ id →
        FifoBank.lane k (final.view other).sent = [] ∧
          FifoBank.lane k (final.view other).taken = [] := by
  obtain ⟨bank, hrecorded, _, hsent, htaken⟩ :=
    share_implements hshares hrun hsafe id
  refine ⟨?_, ?_, ?_⟩
  · have hexecuted := hrecorded.executed_eq k
    rw [share, System.only_ring hset] at hexecuted
    exact hexecuted
  · have hdelivers := bank.delivers k
    rw [hsent, htaken] at hdelivers
    exact hdelivers
  · intro other hother
    obtain ⟨_, hforeign, _, _, _⟩ :=
      share_implements hshares hrun hsafe other
    have hout : ¬ (dep.ofWorker other).InSet k := by
      intro hown
      exact hother (dep.ofWorker_disjoint hown hset)
    have hring : (final.share dep pages other).ring k =
        sysEscaRegister dep.toTableConfig (pages k) :=
      congrArg KernelWorker.ring (if_neg hout)
    have hissued := hforeign.issued_eq k
    have hexecuted := hforeign.executed_eq k
    rw [hring] at hissued hexecuted
    exact ⟨hissued.symm, hexecuted.symm⟩

theorem alternatingWrites_deliver :
    ∃ final,
      Transition.run (step ⟨oneWorkerSet, redis .x86⟩ .atomic)
        (init ⟨oneWorkerSet, redis .x86⟩ (fun _ => blankMemory)
          fun _ => ()) alternatingWrites = some final ∧
      (final.workers 1).ring.executed = [writeEntry .x86 4 96 3] ∧
      (final.workers 0).ring.executed = [] ∧
      FifoBank.lane 1 (final.view 1).taken <+:
        FifoBank.lane 1 (final.view 1).sent := by
  have hrun :
      Transition.run (step ⟨oneWorkerSet, redis .x86⟩ .atomic)
        (init ⟨oneWorkerSet, redis .x86⟩ (fun _ => blankMemory)
          fun _ => ()) alternatingWrites = some _ := rfl
  have hset : (Deployment.ofWorker
      ⟨oneWorkerSet, redis .x86⟩ 1).InSet 1 := by decide
  exact ⟨_, hrun, rfl, rfl,
    (rings_deliver_to_owner (by decide) hrun (by decide +kernel)
      hset).2.1⟩

end Machine

end Saio
