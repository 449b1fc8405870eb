import Saio.IndexUses
import Mathlib.Tactic

/-!
# The lists of index uses are complete

A list of uses is written beside the step it belongs to, so it might leave
something out.  This file shows that it does not.  A step is run once more with
other contents of an array element, or of an entry, that is not in its list:
it does the same, and leaves the other contents as they are.

Every step is first taken against an arbitrary change of what is kept for one
ring, under the conditions that the list imposes on such a change; the
elements of the arrays and the entries are then shown to meet them.
-/

namespace Saio

/-! ## Changes that a step does not see -/

section Changes

variable {κ μ : Type} {dep : Deployment κ μ} {access : FlagAccess}
  {sys : System κ μ} {k j : ℤ} {f : KernelWorker → KernelWorker}

def KernelWorker.onRing (cfg : TableConfig) (worker : KernelWorker)
    (action : RingAction) : Option KernelWorker :=
  match worker.ring.step cfg action with
  | none => none
  | some ring => some { worker with ring := ring }

/-- Change what is kept for ring `k`. -/
def System.change (k : ℤ) (f : KernelWorker → KernelWorker)
    (sys : System κ μ) : System κ μ :=
  sys.setWorker k (f (sys.workers k))

/-- A change of worker `k` that touches nothing in the list: what a step with
these uses reads is unchanged, and what it writes commutes with the change. -/
structure Unlisted (cfg : TableConfig) (first k : ℤ)
    (uses : List IndexUse) (worker : KernelWorker)
    (f : KernelWorker → KernelWorker) : Prop where
  control_eq : (f worker).control = worker.control
  setControl_eq : ∀ (other : KernelWorker) (control : WorkerControl),
    { f other with control := control } =
      f { other with control := control }
  point_eq : (f worker).ring.worker = worker.ring.worker
  flags_eq : .ring .table k ∈ uses → (f worker).flags = worker.flags
  setFlags_eq : .ring .table k ∈ uses → ∀ flags : BitVec 32,
    { f worker with flags := flags } = f { worker with flags := flags }
  task_eq : (f worker).task = worker.task
  wakeUp_eq : .ring .workerWait k ∈ uses →
    (f worker).wakeUp = f worker.wakeUp
  prepareToWait_eq : .ring .workerWait k ∈ uses →
    (f worker).prepareToWait = f worker.prepareToWait
  finishWait_eq : .ring .workerWait k ∈ uses →
    (f worker).finishWait = f worker.finishWait
  submitted_eq : .ring .submitted k ∈ uses →
    (f worker).ring.submitted = worker.ring.submitted
  tail_eq : .ring .table k ∈ uses →
    (f worker).ring.table.tail = worker.ring.table.tail
  cursorEntry_eq : worker.ring.uses cfg first k .poll ⊆ uses →
    (f worker).ring.cursorEntry = worker.ring.cursorEntry
  onRing_eq : ∀ action, worker.ring.uses cfg first k action ⊆ uses →
    (f worker).onRing cfg action = (worker.onRing cfg action).map f

theorem Unlisted.idleStep_eq {cfg : TableConfig} {first : ℤ}
    {uses : List IndexUse} {worker : KernelWorker}
    (hunlisted : Unlisted cfg first k uses worker f)
    (expired : Bool) (hlisted : worker.idleUses first k ⊆ uses) :
    (f worker).idleStep access expired =
      (worker.idleStep access expired).map f := by
  have hset := hunlisted.setControl_eq
  have hwrite : .ring .table k ∈ uses →
      ∀ (flags : BitVec 32) (control : WorkerControl),
        { f worker with flags := flags, control := control } =
          f { worker with flags := flags, control := control } := by
    intro htable flags control
    have hafter := hset { worker with flags := flags } control
    rw [← hunlisted.setFlags_eq htable flags] at hafter
    exact hafter
  unfold KernelWorker.idleUses at hlisted
  unfold KernelWorker.idleStep
  rw [hunlisted.control_eq]
  cases hcontrol : worker.control with
  | running | scanning => rfl
  | sawEmpty => exact congrArg some (hset _ _)
  | expired =>
      rw [hcontrol] at hlisted
      simp only
      rw [hunlisted.prepareToWait_eq (hlisted (by simp))]
      exact congrArg some (hset _ _)
  | prepared =>
      rw [hcontrol] at hlisted
      have htable : .ring .table k ∈ uses :=
        hlisted (by simp [pointerUses])
      simp only
      rw [hunlisted.flags_eq htable]
      cases access with
      | atomic => exact congrArg some (hwrite htable _ _)
      | split => exact congrArg some (hwrite htable _ _)
  | setLoaded flags =>
      rw [hcontrol] at hlisted
      exact congrArg some (hwrite (hlisted (by simp [pointerUses])) _ _)
  | advertised =>
      rw [hcontrol] at hlisted
      simp only
      rw [hunlisted.cursorEntry_eq hlisted]
      split
      · exact congrArg some (hset _ _)
      · exact congrArg some (hset _ _)
  | committed =>
      have hsleep := hset worker .blocked
      have hleave := hset worker .finishing
      simp only [hunlisted.task_eq] at hsleep hleave ⊢
      cases htask : worker.task with
      | interruptible =>
          rw [htask] at hsleep
          exact congrArg some hsleep
      | running =>
          rw [htask] at hleave
          exact congrArg some hleave
  | blocked =>
      have hleave := hset worker .finishing
      simp only [hunlisted.task_eq] at hleave ⊢
      cases htask : worker.task with
      | interruptible => rfl
      | running =>
          rw [htask] at hleave
          exact congrArg some hleave
  | finishing =>
      rw [hcontrol] at hlisted
      simp only
      rw [hunlisted.finishWait_eq (hlisted (by simp))]
      exact congrArg some (hset _ _)
  | clearing =>
      rw [hcontrol] at hlisted
      have htable : .ring .table k ∈ uses :=
        hlisted (by simp [pointerUses])
      simp only
      rw [hunlisted.flags_eq htable]
      cases access with
      | atomic => exact congrArg some (hwrite htable _ _)
      | split => exact congrArg some (hwrite htable _ _)
  | clearLoaded flags =>
      rw [hcontrol] at hlisted
      exact congrArg some (hwrite (hlisted (by simp [pointerUses])) _ _)

namespace System

theorem change_workers_self :
    (sys.change k f).workers k = f (sys.workers k) :=
  if_pos rfl

theorem change_workers_of_ne (hne : j ≠ k) :
    (sys.change k f).workers j = sys.workers j :=
  if_neg hne

theorem change_setWorker {worker changed : KernelWorker}
    (hself : j = k → changed = f worker)
    (hother : j ≠ k → changed = worker) :
    (sys.change k f).setWorker j changed =
      (sys.setWorker j worker).change k f := by
  unfold change setWorker
  simp only [System.mk.injEq, and_true]
  funext n
  by_cases hj : j = k
  · subst k
    rw [hself rfl]
    by_cases hn : n = j
    · simp [hn]
    · simp [hn]
  · rw [hother hj]
    by_cases hn : n = j
    · subst n
      simp [hj]
    · by_cases hk : n = k
      · subst n
        simp [hn]
      · simp [hn, hk]

/-- What is read from worker `j` is not changed. -/
theorem change_read {α : Type} (read : KernelWorker → α)
    (hself : j = k → read (f (sys.workers j)) = read (sys.workers j)) :
    read ((sys.change k f).workers j) = read (sys.workers j) := by
  by_cases hj : j = k
  · subst k
    rw [change_workers_self]
    exact hself rfl
  · rw [change_workers_of_ne hj]

theorem change_setFlags {flags : BitVec 32}
    (hself : j = k → { f (sys.workers j) with flags := flags } =
      f { sys.workers j with flags := flags }) :
    (sys.change k f).setFlags j flags =
      (sys.setFlags j flags).change k f := by
  apply change_setWorker
  · intro hj
    subst k
    rw [change_workers_self]
    exact hself rfl
  · intro hj
    rw [change_workers_of_ne hj]

theorem change_setControl {control : WorkerControl}
    (hself : ∀ (other : KernelWorker) (control : WorkerControl),
      { f other with control := control } =
        f { other with control := control }) :
    (sys.change k f).setControl j control =
      (sys.setControl j control).change k f := by
  apply change_setWorker
  · intro hj
    subst k
    rw [change_workers_self]
    exact hself _ _
  · intro hj
    rw [change_workers_of_ne hj]

theorem onRing_eq_map (action : RingAction) :
    sys.onRing dep k action =
      ((sys.workers k).onRing dep.toTableConfig action).map
        (sys.setWorker k) := by
  unfold System.onRing KernelWorker.onRing System.ring
  split <;> simp [*]

theorem change_onRing {action : RingAction}
    (hself : j = k →
      (f (sys.workers j)).onRing dep.toTableConfig action =
        ((sys.workers j).onRing dep.toTableConfig action).map f) :
    (sys.change k f).onRing dep j action =
      (sys.onRing dep j action).map (change k f) := by
  rw [onRing_eq_map, onRing_eq_map, Option.map_map]
  by_cases hj : j = k
  · subst k
    rw [change_workers_self, hself rfl, Option.map_map]
    congr 1
    funext worker
    exact change_setWorker (fun _ => rfl) (absurd rfl)
  · rw [change_workers_of_ne hj]
    congr 1
    funext worker
    exact change_setWorker (absurd · hj) (fun _ => rfl)

/-! ### Each read and write of a step -/

section Accesses

variable {uses : List IndexUse}
  (hunlisted : Unlisted dep.toTableConfig dep.firstRing k uses
    (sys.workers k) f)

include hunlisted

theorem flags_change (hlisted : j = k → .ring .table k ∈ uses) :
    ((sys.change k f).workers j).flags = (sys.workers j).flags := by
  apply change_read KernelWorker.flags
  rintro rfl
  exact hunlisted.flags_eq (hlisted rfl)

theorem setFlags_change (hlisted : j = k → .ring .table k ∈ uses)
    (flags : BitVec 32) :
    (sys.change k f).setFlags j flags =
      (sys.setFlags j flags).change k f := by
  apply change_setFlags
  rintro rfl
  exact hunlisted.setFlags_eq (hlisted rfl) flags

theorem submitted_change (hlisted : j = k → .ring .submitted k ∈ uses) :
    ((sys.change k f).ring j).submitted = (sys.ring j).submitted := by
  apply change_read (fun worker => worker.ring.submitted)
  rintro rfl
  exact hunlisted.submitted_eq (hlisted rfl)

theorem cursorEntry_change
    (hlisted : j = k →
      (sys.ring k).uses dep.toTableConfig dep.firstRing k .poll ⊆ uses) :
    ((sys.change k f).ring j).cursorEntry = (sys.ring j).cursorEntry := by
  apply change_read (fun worker => worker.ring.cursorEntry)
  rintro rfl
  exact hunlisted.cursorEntry_eq (hlisted rfl)

theorem onRing_change {action : RingAction}
    (hlisted : j = k →
      (sys.ring k).uses dep.toTableConfig dep.firstRing k action ⊆
        uses) :
    (sys.change k f).onRing dep j action =
      (sys.onRing dep j action).map (change k f) := by
  apply change_onRing
  rintro rfl
  exact hunlisted.onRing_eq action (hlisted rfl)

end Accesses

theorem userStep_change
    (hunlisted : Unlisted dep.toTableConfig dep.firstRing k
      (sys.userUses dep) (sys.workers k) f) :
    (sys.change k f).userStep dep access =
      (sys.userStep dep access).map (change k f) := by
  have huser : (sys.change k f).user = sys.user := rfl
  unfold userStep
  rw [huser]
  cases hpc : sys.user with
  | ready => rfl
  | startTest j =>
      simp only
      rw [flags_change hunlisted
        (by rintro rfl; simp [userUses, hpc, pointerUses])]
      split <;> rfl
  | startSet j =>
      have hlisted : j = k → .ring .table k ∈ sys.userUses dep := by
        rintro rfl
        simp [userUses, hpc, pointerUses]
      cases access with
      | atomic =>
          simp only
          rw [flags_change hunlisted hlisted,
            setFlags_change hunlisted hlisted]
          rfl
      | split =>
          simp only
          rw [flags_change hunlisted hlisted]
          rfl
  | startSetLoaded j flags =>
      simp only
      rw [setFlags_change hunlisted
        (by rintro rfl; simp [userUses, hpc, pointerUses])]
      rfl
  | wakeupTest j =>
      simp only
      rw [flags_change hunlisted
        (by rintro rfl; simp [userUses, hpc, pointerUses])]
      split <;> rfl
  | wakeup j =>
      have hwake : (sys.change k f).setWorker j
          ((sys.change k f).workers j).wakeUp =
            (sys.setWorker j (sys.workers j).wakeUp).change k f := by
        apply change_setWorker
        · rintro rfl
          rw [change_workers_self]
          exact hunlisted.wakeUp_eq (by simp [userUses, hpc])
        · intro hj
          rw [change_workers_of_ne hj]
      simp only
      rw [hwake]
      rfl
  | startClear j =>
      have hlisted : j = k → .ring .table k ∈ sys.userUses dep := by
        rintro rfl
        simp [userUses, hpc, pointerUses]
      cases access with
      | atomic =>
          simp only
          rw [flags_change hunlisted hlisted,
            setFlags_change hunlisted hlisted]
          rfl
      | split =>
          simp only
          rw [flags_change hunlisted hlisted]
          rfl
  | startClearLoaded j flags =>
      simp only
      rw [setFlags_change hunlisted
        (by rintro rfl; simp [userUses, hpc, pointerUses])]
      rfl
  | advancing idx source entry =>
      simp only
      rw [onRing_change hunlisted
        (by rintro rfl; simp [userUses, hpc])]
      cases sys.onRing dep idx .advance <;> rfl
  | marking idx =>
      simp only
      rw [onRing_change hunlisted
        (by rintro rfl; simp [userUses, hpc])]
      cases sys.onRing dep idx .storeBusy <;> rfl
  | flushWait => rfl

theorem call_change {source : κ}
    (hunlisted : Unlisted dep.toTableConfig dep.firstRing k
      (sys.callUses dep source) (sys.workers k) f) :
    (sys.change k f).call dep source =
      (sys.call dep source).map (change k f) := by
  have hsegment : (sys.change k f).inSegment = sys.inSegment := rfl
  unfold call
  rw [hsegment]
  split
  next hinside =>
    have hlisted : dep.route source = k →
        (sys.ring k).uses dep.toTableConfig dep.firstRing k
          (.write (sys.prepared dep source).1) ⊆
            sys.callUses dep source := by
      rintro rfl
      rw [callUses, if_pos hinside]
      exact fun use huse => by simp [huse]
    have htail : ((sys.change k f).ring (dep.route source)).table.tail =
        (sys.ring (dep.route source)).table.tail := by
      refine change_read (fun worker => worker.ring.table.tail) ?_
      rintro rfl
      exact hunlisted.tail_eq (hlisted rfl (by simp [Ring.uses, pointerUses]))
    have hmemory : (sys.change k f).memory = sys.memory := rfl
    have hring := onRing_change hunlisted hlisted
    simp only
    rw [htail, hmemory]
    unfold prepared at hring
    rw [hring]
    cases sys.onRing dep (dep.route source) _ <;> rfl
  next => rfl

theorem batchStep_change {n sysret : ℤ}
    (hcontrol : (sys.workers n).control = .running)
    (hunlisted : Unlisted dep.toTableConfig dep.firstRing k
      ((sys.workers n).uses dep n) (sys.workers k) f) :
    (sys.change k f).batchStep dep n sysret =
      (sys.batchStep dep n sysret).map (change k f) := by
  have hpoint : ((sys.change k f).ring n).worker =
      (sys.ring n).worker := by
    refine change_read (fun worker => worker.ring.worker) ?_
    rintro rfl
    exact hunlisted.point_eq
  unfold batchStep
  rw [hpoint]
  cases hphase : (sys.ring n).worker with
  | poll =>
      have huses := KernelWorker.uses_poll dep n hcontrol hphase
      have hlisted : n = k →
          (sys.ring k).uses dep.toTableConfig dep.firstRing k .poll ⊆
            (sys.workers n).uses dep n := by
        rintro rfl
        rw [huses]
        exact List.Subset.refl _
      simp only
      rw [cursorEntry_change hunlisted hlisted]
      split
      next =>
        rw [change_setControl hunlisted.setControl_eq]
        rfl
      next => exact onRing_change hunlisted hlisted
  | snapshot =>
      have huses := KernelWorker.uses_snapshot dep n hcontrol hphase
      apply onRing_change hunlisted
      rintro rfl
      rw [huses]
      exact List.Subset.refl _
  | drain =>
      have huses := KernelWorker.uses_drain dep n hcontrol hphase
      change _ = if (sys.ring n).submitted = 0 then _ else _ at huses
      have hcounter : n = k → .ring .submitted k ∈
          (sys.workers n).uses dep n := by
        rintro rfl
        rw [huses]
        split <;> simp [Ring.uses]
      simp only
      rw [submitted_change hunlisted hcounter]
      split
      next hzero =>
        rw [if_pos hzero] at huses
        apply onRing_change hunlisted
        rintro rfl
        rw [huses]
        exact List.Subset.refl _
      next hne =>
        rw [if_neg hne] at huses
        have hlisted : n = k →
            (sys.ring k).uses dep.toTableConfig dep.firstRing k .execute ⊆
              (sys.workers n).uses dep n := by
          rintro rfl
          rw [huses]
          exact List.subset_append_left _ _
        have hpolled : n = k →
            (sys.ring k).uses dep.toTableConfig dep.firstRing k .poll ⊆
              (sys.workers n).uses dep n :=
          fun hn => List.Subset.trans (List.subset_append_left _ _)
            (hlisted hn)
        unfold executeEntry
        rw [onRing_change hunlisted hlisted,
          cursorEntry_change hunlisted hpolled]
        cases sys.onRing dep n .execute with
        | none => rfl
        | some next =>
            simp only [Option.map_some]
            rw [change_setControl hunlisted.setControl_eq]
            rfl

theorem scanStep_change {n m : ℤ}
    (hcontrol : (sys.workers n).control = .scanning m)
    (hunlisted : Unlisted dep.toTableConfig dep.firstRing k
      ((sys.workers n).uses dep n) (sys.workers k) f) :
    (sys.change k f).scanStep dep n m =
      (sys.scanStep dep n m).change k f := by
  unfold scanStep
  split
  next hlt =>
    rw [submitted_change hunlisted
      (by rintro rfl; simp [KernelWorker.uses, hcontrol, hlt])]
    split
    · exact change_setControl hunlisted.setControl_eq
    · exact change_setControl hunlisted.setControl_eq
  next =>
    rw [change_setControl hunlisted.setControl_eq]
    rfl

theorem workerStep_change {n sysret : ℤ} {expired : Bool}
    (hunlisted : Unlisted dep.toTableConfig dep.firstRing k
      ((sys.workers n).uses dep n) (sys.workers k) f) :
    (sys.change k f).workerStep dep access n expired sysret =
      (sys.workerStep dep access n expired sysret).map
        (change k f) := by
  have hcontrol : ((sys.change k f).workers n).control =
      (sys.workers n).control := by
    refine change_read KernelWorker.control ?_
    rintro rfl
    exact hunlisted.control_eq
  unfold workerStep
  rw [hcontrol]
  cases hpc : (sys.workers n).control with
  | running => exact batchStep_change hpc hunlisted
  | scanning m =>
      exact congrArg some (scanStep_change hpc hunlisted)
  | _ =>
      have hlisted : (sys.workers n).idleUses dep.firstRing n ⊆
          (sys.workers n).uses dep n := by
        rw [KernelWorker.uses, hpc]
        exact List.Subset.refl _
      by_cases hn : n = k
      · subst n
        simp only [change_workers_self,
          hunlisted.idleStep_eq _ hlisted]
        cases (sys.workers k).idleStep access expired with
        | none => rfl
        | some worker =>
            exact congrArg some
              (change_setWorker (fun _ => rfl) (absurd rfl))
      · simp only [change_workers_of_ne hn]
        cases (sys.workers n).idleStep access expired with
        | none => rfl
        | some worker =>
            exact congrArg some
              (change_setWorker (absurd · hn) fun _ => rfl)

/-- A step does not see a change that touches nothing in its list, and leaves
it as it is. -/
theorem step_change {action : SystemAction κ}
    (hunlisted : Unlisted dep.toTableConfig dep.firstRing k
      (sys.uses dep action) (sys.workers k) f) :
    (sys.change k f).step dep access action =
      (sys.step dep access action).map (change k f) := by
  have huser : (sys.change k f).user = sys.user := rfl
  cases action with
  | batchStart =>
      unfold step
      rw [huser]
      cases sys.user <;> rfl
  | call source =>
      unfold step
      rw [huser]
      cases sys.user with
      | ready => exact call_change hunlisted
      | _ => rfl
  | batchFlush =>
      unfold step
      rw [huser]
      cases sys.user with
      | ready =>
          simp only [batchFlush]
          have hcount : (sys.change k f).batchNum = sys.batchNum := rfl
          rw [hcount]
          split <;> rfl
      | _ => rfl
  | user => exact userStep_change hunlisted
  | worker n expired sysret =>
      simp only [step, uses] at hunlisted ⊢
      split
      next hset =>
        rw [if_pos hset] at hunlisted
        exact workerStep_change hunlisted
      next => rfl

end System

end Changes

/-! ## The elements that a step leaves alone -/

/-- Replace what an array holds for a ring by what it holds in `donor`.  The
other arrays keep no state of a running set: the pinned pages and the tasks
are not used any more, nothing is left at `wq`, and `off_arr` belongs to the
memory of the process. -/
def RingArray.overwrite (donor : KernelWorker) (array : RingArray)
    (worker : KernelWorker) : KernelWorker :=
  match array with
  | .table =>
      { worker with
        flags := donor.flags
        ring := { worker.ring with table := donor.ring.table } }
  | .submitted =>
      { worker with
        ring := { worker.ring with submitted := donor.ring.submitted } }
  | .workerWait => { worker with queued := donor.queued }
  | .tablePinnedPages | .workerTask | .wq | .offArr => worker

/-- Replace the entry at a place in the pages of a ring. -/
def KernelWorker.overwriteEntry (place : ℕ × ℕ) (entry : TableEntry)
    (worker : KernelWorker) : KernelWorker :=
  { worker with
    ring := { worker.ring with
      table := worker.ring.table.setEntry place entry } }

section Lists

variable {cfg : TableConfig} {first k : ℤ} {uses : List IndexUse}
  {worker donor : KernelWorker} {ring : Ring}

theorem Ring.table_mem_uses (action : RingAction) :
    .ring .table k ∈ ring.uses cfg first k action := by
  cases action <;> simp [Ring.uses, pointerUses]

theorem unlisted_self : Unlisted cfg first k uses worker id where
  control_eq := rfl
  setControl_eq := fun _ _ => rfl
  point_eq := rfl
  flags_eq := fun _ => rfl
  setFlags_eq := fun _ _ => rfl
  task_eq := rfl
  wakeUp_eq := fun _ => rfl
  prepareToWait_eq := fun _ => rfl
  finishWait_eq := fun _ => rfl
  submitted_eq := fun _ => rfl
  tail_eq := fun _ => rfl
  cursorEntry_eq := fun _ => rfl
  onRing_eq := fun _ _ => Option.map_id.symm ▸ rfl

theorem KernelWorker.wakeUp_change {f : KernelWorker → KernelWorker}
    (hqueued : (f worker).queued = worker.queued)
    (htask : (f worker).task = worker.task)
    (hset : { f worker with task := .running, queued := false } =
      f { worker with task := .running, queued := false }) :
    (f worker).wakeUp = f worker.wakeUp := by
  unfold KernelWorker.wakeUp
  rw [hqueued, htask]
  split
  · exact hset
  · rfl

theorem unlisted_table (hnot : .ring .table k ∉ uses) :
    Unlisted cfg first k uses worker (RingArray.table.overwrite donor) where
  control_eq := rfl
  setControl_eq := fun _ _ => rfl
  point_eq := rfl
  flags_eq := fun hlisted => absurd hlisted hnot
  setFlags_eq := fun hlisted => absurd hlisted hnot
  task_eq := rfl
  wakeUp_eq := fun _ => KernelWorker.wakeUp_change rfl rfl rfl
  prepareToWait_eq := fun _ => rfl
  finishWait_eq := fun _ => rfl
  submitted_eq := fun _ => rfl
  tail_eq := fun hlisted => absurd hlisted hnot
  cursorEntry_eq := fun hlisted =>
    absurd (hlisted (Ring.table_mem_uses .poll)) hnot
  onRing_eq := fun action hlisted =>
    absurd (hlisted (Ring.table_mem_uses action)) hnot

theorem Ring.step_with_submitted (submitted : ℤ) {action : RingAction}
    (hnot : .ring .submitted k ∉ ring.uses cfg first k action) :
    ({ ring with submitted := submitted } : Ring).step cfg action =
      (ring.step cfg action).map
        fun next => { next with submitted := submitted } := by
  cases action with
  | write call =>
      simp only [Ring.step]
      cases ring.producer <;> rfl
  | advance =>
      simp only [Ring.step]
      cases ring.producer with
      | written i j call =>
          simp only
          split <;> rfl
      | _ => rfl
  | storeBusy =>
      simp only [Ring.step]
      cases ring.producer <;> rfl
  | poll =>
      have hentry : ({ ring with submitted := submitted } :
          Ring).cursorEntry = ring.cursorEntry := rfl
      simp only [Ring.step, Ring.poll]
      rw [hentry]
      split
      next => split <;> rfl
      next => rfl
  | snapshot => exact absurd (by simp [Ring.uses]) hnot
  | execute => exact absurd (by simp [Ring.uses]) hnot
  | publish => exact absurd (by simp [Ring.uses]) hnot

theorem unlisted_submitted (hnot : .ring .submitted k ∉ uses) :
    Unlisted cfg first k uses worker
      (RingArray.submitted.overwrite donor) where
  control_eq := rfl
  setControl_eq := fun _ _ => rfl
  point_eq := rfl
  flags_eq := fun _ => rfl
  setFlags_eq := fun _ _ => rfl
  task_eq := rfl
  wakeUp_eq := fun _ => KernelWorker.wakeUp_change rfl rfl rfl
  prepareToWait_eq := fun _ => rfl
  finishWait_eq := fun _ => rfl
  submitted_eq := fun hlisted => absurd hlisted hnot
  tail_eq := fun _ => rfl
  cursorEntry_eq := fun _ => rfl
  onRing_eq := by
    intro action hlisted
    simp only [KernelWorker.onRing, RingArray.overwrite]
    rw [Ring.step_with_submitted donor.ring.submitted
      fun hmem => hnot (hlisted hmem)]
    cases worker.ring.step cfg action <;> rfl

theorem unlisted_workerWait (hnot : .ring .workerWait k ∉ uses) :
    Unlisted cfg first k uses worker
      (RingArray.workerWait.overwrite donor) where
  control_eq := rfl
  setControl_eq := fun _ _ => rfl
  point_eq := rfl
  flags_eq := fun _ => rfl
  setFlags_eq := fun _ _ => rfl
  task_eq := rfl
  wakeUp_eq := fun hlisted => absurd hlisted hnot
  prepareToWait_eq := fun hlisted => absurd hlisted hnot
  finishWait_eq := fun hlisted => absurd hlisted hnot
  submitted_eq := fun _ => rfl
  tail_eq := fun _ => rfl
  cursorEntry_eq := fun _ => rfl
  onRing_eq := by
    intro action _
    simp only [KernelWorker.onRing, RingArray.overwrite]
    cases worker.ring.step cfg action <;> rfl

theorem unlisted_overwrite {array : RingArray}
    (hnot : .ring array k ∉ uses) :
    Unlisted cfg first k uses worker (array.overwrite donor) := by
  cases array with
  | table => exact unlisted_table hnot
  | submitted => exact unlisted_submitted hnot
  | workerWait => exact unlisted_workerWait hnot
  | tablePinnedPages | workerTask | wq | offArr => exact unlisted_self

/-! ### Entries -/

section Entries

variable {place slot : ℕ × ℕ} {entry : TableEntry}

theorem EscaTable.setEntry_comm (table : EscaTable)
    (entry other : TableEntry) (hne : place ≠ slot) :
    (table.setEntry place entry).setEntry slot other =
      (table.setEntry slot other).setEntry place entry := by
  unfold EscaTable.setEntry
  simp only [EscaTable.mk.injEq, and_true]
  funext i j
  by_cases hplace : (i, j) = place
  · simp [hplace, hne]
  · simp [hplace]

theorem EscaTable.setStatus_setEntry (table : EscaTable)
    (entry : TableEntry) (status : EntryStatus) (hne : place ≠ slot) :
    (table.setEntry place entry).setStatus slot status =
      (table.setStatus slot status).setEntry place entry := by
  unfold EscaTable.setStatus
  rw [EscaTable.entryAt_setEntry_of_ne table entry hne.symm]
  exact table.setEntry_comm entry _ hne

theorem EscaTable.fillUser_setEntry (table : EscaTable)
    (entry : TableEntry) (call : SysCall)
    (hne : place ≠ cfg.userSlot slot) :
    (table.setEntry place entry).fillUser cfg slot call =
      (table.fillUser cfg slot call).setEntry place entry := by
  unfold EscaTable.fillUser EscaTable.userEntryAt
  rw [EscaTable.entryAt_setEntry_of_ne table entry hne.symm]
  exact table.setEntry_comm entry _ hne

theorem EscaTable.updateIndex_setEntry (table : EscaTable) :
    (table.setEntry place entry).updateIndex cfg =
      (table.updateIndex cfg).setEntry place entry := by
  have htail : (table.setEntry place entry).tailEntry =
      table.tailEntry := rfl
  unfold EscaTable.updateIndex
  rw [htail]
  split <;> rfl

/-- The place of the entry is none of those that the list has, in either of
the two arrays. -/
def ApartFrom (cfg : TableConfig) (place : ℕ × ℕ)
    (uses : List IndexUse) : Prop :=
  ∀ slot, slotUses slot ⊆ uses → place ≠ slot ∧ place ≠ cfg.userSlot slot

theorem Ring.cursorEntry_with_entry (ring : Ring) (entry : TableEntry)
    (hne : place ≠ ring.cursor) :
    ({ ring with table := ring.table.setEntry place entry } :
      Ring).cursorEntry = ring.cursorEntry :=
  EscaTable.entryAt_setEntry_of_ne ring.table entry hne.symm

theorem Ring.step_with_entry {action : RingAction}
    (hapart : ApartFrom cfg place (ring.uses cfg first k action)) :
    ({ ring with table := ring.table.setEntry place entry } : Ring).step
        cfg action =
      (ring.step cfg action).map
        fun next => { next with
          table := next.table.setEntry place entry } := by
  cases action with
  | write call =>
      have hne := (hapart ring.table.tail (by simp [Ring.uses])).2
      simp only [Ring.step, Ring.write, RingBase.fill]
      cases ring.producer with
      | idle =>
          simp only [Option.map_some, Option.some.injEq]
          have hfill := ring.table.fillUser_setEntry entry call hne
          exact congrArg (fun table => ({ ring with
            table := table
            producer := .written ring.table.tailTable
              ring.table.tailEntry call } : Ring)) hfill
      | written i j call => rfl
      | advanced i j => rfl
  | advance =>
      have hspin : (ring.table.setEntry place entry).SpinsFull ↔
          ring.table.SpinsFull := Iff.rfl
      simp only [Ring.step, Ring.advance]
      cases ring.producer with
      | written i j call =>
          simp only [hspin]
          split
          · rfl
          · simp only [EscaTable.updateIndex_setEntry, Option.map_some]
      | idle => rfl
      | advanced i j => rfl
  | storeBusy =>
      simp only [Ring.step]
      cases hproducer : ring.producer with
      | advanced i j =>
          have hne := (hapart (i, j) (by simp [Ring.uses, hproducer])).2
          simp only [Ring.storeBusy, RingBase.mark, EscaTable.markUser,
            ring.table.setStatus_setEntry entry .busy hne,
            Option.map_some]
      | idle => rfl
      | written i j call => rfl
  | poll =>
      have hne := (hapart ring.cursor (by simp [Ring.uses])).1
      simp only [Ring.step, Ring.poll, ring.cursorEntry_with_entry entry hne]
      split
      next => split <;> rfl
      next => rfl
  | snapshot =>
      simp only [Ring.step]
      split <;> rfl
  | execute =>
      have hne := (hapart ring.cursor (by simp [Ring.uses])).1
      simp only [Ring.step]
      split
      next =>
        have hstatus := ring.table.setStatus_setEntry entry .empty hne
        have hcall := ring.cursorEntry_with_entry entry hne
        simp only [Ring.execute, RingBase.execute, RingBase.cursor,
          Option.map_some, Option.some.injEq]
        simp only [RingBase.cursor] at hstatus
        rw [hstatus, hcall]
      next => rfl
  | publish =>
      simp only [Ring.step]
      split <;> rfl

theorem unlisted_overwriteEntry
    (hapart : .ring .table k ∈ uses → ApartFrom cfg place uses) :
    Unlisted cfg first k uses worker
      (KernelWorker.overwriteEntry place entry) where
  control_eq := rfl
  setControl_eq := fun _ _ => rfl
  point_eq := rfl
  flags_eq := fun _ => rfl
  setFlags_eq := fun _ _ => rfl
  task_eq := rfl
  wakeUp_eq := fun _ => KernelWorker.wakeUp_change rfl rfl rfl
  prepareToWait_eq := fun _ => rfl
  finishWait_eq := fun _ => rfl
  submitted_eq := fun _ => rfl
  tail_eq := fun _ => rfl
  cursorEntry_eq := by
    intro hlisted
    have htable := hlisted (Ring.table_mem_uses .poll)
    refine worker.ring.cursorEntry_with_entry entry
      (hapart htable _ ?_).1
    exact List.Subset.trans (List.subset_append_right _ _) hlisted
  onRing_eq := by
    intro action hlisted
    have htable := hlisted (Ring.table_mem_uses action)
    simp only [KernelWorker.onRing, KernelWorker.overwriteEntry]
    rw [Ring.step_with_entry fun slot hslot =>
      hapart htable slot (List.Subset.trans hslot hlisted)]
    cases worker.ring.step cfg action <;> rfl

end Entries

end Lists

/-- What a step reads or writes is in its list: with other contents of the
array elements and of the entries that are not, it does the same, and leaves
them as they are. -/
structure System.ListsUses {κ μ : Type} (dep : Deployment κ μ)
    (access : FlagAccess) (sys : System κ μ) (action : SystemAction κ) :
    Prop where
  arrays : ∀ array k donor, .ring array k ∉ sys.uses dep action →
    (sys.change k (array.overwrite donor)).step dep access action =
      (sys.step dep access action).map
        (System.change k (array.overwrite donor))
  entries : ∀ k place entry,
    (.ring .table k ∈ sys.uses dep action →
      ApartFrom dep.toTableConfig place (sys.uses dep action)) →
    (sys.change k (KernelWorker.overwriteEntry place entry)).step dep
        access action =
      (sys.step dep access action).map
        (System.change k (KernelWorker.overwriteEntry place entry))

theorem System.listsUses {κ μ : Type} (dep : Deployment κ μ)
    (access : FlagAccess) (sys : System κ μ) (action : SystemAction κ) :
    sys.ListsUses dep access action where
  arrays := fun _ _ _ hnot => step_change (unlisted_overwrite hnot)
  entries := fun _ _ _ hapart => step_change (unlisted_overwriteEntry hapart)

/-! ## The rings of a set-up -/

namespace ConfigGlobals

variable {globals : ConfigGlobals} {outcomes : SetupOutcomes}
  {idx k : ℤ}

theorem registerRings_of_unlisted
    (hratio : globals.ratio = globals.preload.ratio)
    {rings : List ℤ} {registered : ℤ → Bool}
    (hnot : .ring .table k ∉
      globals.setupUses outcomes (idx * globals.ratio) rings) :
    WorkerProcess.registerRings globals.preload outcomes idx registered
      rings k = registered k := by
  induction rings generalizing registered with
  | nil => rfl
  | cons i rest ih =>
      simp only [setupUses, pointerUses, List.mem_append, List.mem_cons,
        not_or] at hnot
      obtain ⟨⟨_, hi, _⟩, hlater⟩ := hnot
      have hne : k ≠ i := fun hequal => hi (by rw [hequal])
      unfold WorkerProcess.registerRings
      split
      next hallocated =>
        rw [if_pos hallocated] at hlater
        simp only [List.mem_append, not_or] at hlater
        obtain ⟨⟨hregister, _⟩, hrest⟩ := hlater
        rw [ih hrest, WorkerProcess.registerRing, if_neg hne, if_neg]
        rintro ⟨hfirst, _, hset⟩
        apply hregister
        rw [PreloadConfig.firstRing, ← hratio] at hfirst
        rw [PreloadConfig.mem_rings, PreloadConfig.firstRing,
          ← hratio, ← hfirst] at hset
        have hheader : .ring .table k ∈ globals.headerUses true i := by
          rw [headerUses, if_pos rfl, List.mem_flatMap]
          refine ⟨(k - i).toNat, List.mem_range.mpr (by omega), ?_⟩
          have hk : i + ((k - i).toNat : ℤ) = k := by omega
          rw [hk]
          simp [pointerUses]
        rw [← hfirst, decide_eq_true rfl]
        exact List.mem_append_left _ hheader
      next => exact Function.update_of_ne hne _ _

/-- The set-up changes the registration of the rings in its list only. -/
theorem initWorker_of_unlisted
    (hratio : globals.ratio = globals.preload.ratio)
    {start proc : WorkerProcess}
    (hinit : start.initWorker globals.preload outcomes idx = some proc)
    (hnot : .ring .table k ∉ globals.initWorkerUses outcomes idx) :
    proc.registered k = start.registered k := by
  unfold WorkerProcess.initWorker at hinit
  unfold initWorkerUses at hnot
  split at hinit
  next =>
    cases hinit
    rfl
  next haccepted =>
    change ¬ globals.maxUsrWorker ≤ idx at haccepted
    rw [if_neg haccepted] at hnot
    split at hinit
    next => contradiction
    next =>
      cases hinit
      exact registerRings_of_unlisted hratio hnot

end ConfigGlobals

end Saio
