import Saio.SystemModel
import Mathlib.Tactic

/-!
# What one step of the system does to the rings

Most steps of the system touch no ring at all: the idle paths, the flag
updates, the completion scan and the library code outside a wrapped call.  The
others perform exactly one ring action on exactly one ring.  `Effect` lists
the possibilities together with what they add to the histories, and
`step_effect` is the inversion of the step function along this list.
-/

namespace Saio

variable {κ μ : Type} {dep : Deployment κ μ} {access : FlagAccess}
  {sys next : System κ μ}

/-- The user thread is not inside a wrapped call. -/
def UserPc.Outside : UserPc κ → Prop
  | .advancing _ _ _ => False
  | .marking _ => False
  | _ => True

theorem Deployment.startAt_outside (dep : Deployment κ μ) (j : ℤ) :
    (dep.startAt j).Outside := by
  unfold Deployment.startAt
  split <;> trivial

/-- The worker is in its batch loop or has just left it at an empty poll. -/
def WorkerControl.InBatch : WorkerControl → Prop
  | .running => True
  | .sawEmpty => True
  | .scanning _ => True
  | _ => False

/-- The entry and the memory that the wrapper makes of a call. -/
def System.prepared (dep : Deployment κ μ) (sys : System κ μ)
    (source : κ) : SysCall × μ :=
  dep.wrapper.prepare dep.toTableConfig source sys.memory
    (dep.route source) (sys.ring (dep.route source)).table.tail.1
    (sys.ring (dep.route source)).table.tail.2

namespace System

@[simp] theorem setWorker_self (sys : System κ μ) (k : ℤ)
    (worker : KernelWorker) :
    (sys.setWorker k worker).workers k = worker := by
  simp [setWorker]

theorem setWorker_of_ne (sys : System κ μ) {k n : ℤ} (hne : n ≠ k)
    (worker : KernelWorker) :
    (sys.setWorker k worker).workers n = sys.workers n := by
  simp [setWorker, hne]

theorem ring_setWorker_of_ring (sys : System κ μ) {k : ℤ}
    {worker : KernelWorker} (hring : worker.ring = sys.ring k) (n : ℤ) :
    (sys.setWorker k worker).ring n = sys.ring n := by
  unfold ring
  by_cases hn : n = k
  · subst n
    rw [setWorker_self]
    exact hring
  · rw [setWorker_of_ne _ hn]

/-! ## Inversion of the components of a step -/

theorem onRing_frame {k : ℤ} {action : RingAction}
    (hstep : sys.onRing dep k action = some next) :
    ∃ ring, (sys.ring k).step dep.toTableConfig action = some ring ∧
      next = sys.setWorker k { sys.workers k with ring := ring } := by
  unfold onRing at hstep
  split at hstep
  next => simp at hstep
  next ring hring =>
    simp only [Option.some.injEq] at hstep
    exact ⟨ring, hring, hstep.symm⟩

/-- A wrapped call is queued inside a segment and passed on outside. -/
theorem call_cases {source : κ}
    (hstep : sys.call dep source = some next) :
    (sys.inSegment = true ∧
      ∃ queued,
        sys.onRing dep (dep.route source)
            (.write (sys.prepared dep source).1) = some queued ∧
          next = { queued with
            batchNum := sys.batchNum + 1
            memory := (sys.prepared dep source).2
            user := .advancing (dep.route source) source
              (sys.prepared dep source).1 }) ∨
      sys.inSegment = false ∧
        next = { sys with direct := sys.direct ++ [source] } := by
  unfold call at hstep
  cases hsegment : sys.inSegment with
  | false =>
      simp only [hsegment, Bool.false_eq_true, if_false,
        Option.some.injEq] at hstep
      exact Or.inr ⟨rfl, hstep.symm⟩
  | true =>
      simp only [hsegment, if_true] at hstep
      split at hstep
      next => simp at hstep
      next queued hqueued =>
        simp only [Option.some.injEq] at hstep
        exact Or.inl ⟨rfl, queued, hqueued, hstep.symm⟩

theorem executeEntry_cases {k sysret : ℤ}
    (hstep : sys.executeEntry dep k sysret = some next) :
    ∃ done,
      sys.onRing dep k .execute = some done ∧
        next = { done.setControl k
            (if k.tmod dep.ratio = 0 then .scanning k else .running) with
          memory := dep.wrapper.perform (sys.ring k).cursorEntry.call
            sysret sys.memory
          executed := sys.executed ++
            [⟨k, (sys.ring k).cursorEntry.call, sys.memory⟩] } := by
  unfold executeEntry at hstep
  simp only at hstep
  split at hstep
  next => simp at hstep
  next done hdone =>
    simp only [Option.some.injEq] at hstep
    exact ⟨done, hdone, hstep.symm⟩

/-- A step of the batch loop finds an empty slot, moves its ring without an
execution, or executes an entry. -/
theorem batchStep_cases {k sysret : ℤ}
    (hstep : sys.batchStep dep k sysret = some next) :
    next = sys.setControl k .sawEmpty ∨
      (∃ ringAction,
        (ringAction = .poll ∨ ringAction = .snapshot ∨
          ringAction = .publish) ∧
        sys.onRing dep k ringAction = some next) ∨
      sys.executeEntry dep k sysret = some next := by
  unfold batchStep at hstep
  split at hstep
  next =>
    split at hstep
    next =>
      simp only [Option.some.injEq] at hstep
      exact Or.inl hstep.symm
    next => exact Or.inr (Or.inl ⟨.poll, Or.inl rfl, hstep⟩)
  next =>
    exact Or.inr (Or.inl ⟨.snapshot, Or.inr (Or.inl rfl), hstep⟩)
  next =>
    split at hstep
    next =>
      exact Or.inr (Or.inl ⟨.publish, Or.inr (Or.inr rfl), hstep⟩)
    next => exact Or.inr (Or.inr hstep)

/-- One ring action on one ring, everything else as before. -/
structure RingMoves (dep : Deployment κ μ) (sys next : System κ μ)
    (k : ℤ) (action : RingAction) : Prop where
  moved :
    (sys.ring k).step dep.toTableConfig action = some (next.ring k)
  others : ∀ n, n ≠ k → next.ring n = sys.ring n

inductive Effect (dep : Deployment κ μ) (sys : System κ μ) :
    SystemAction κ → System κ μ → Prop
  | quiet {action : SystemAction κ} {next : System κ μ}
      (hring : ∀ k, next.ring k = sys.ring k)
      (hissued : next.issued = sys.issued)
      (hexecuted : next.executed = sys.executed)
      (huser : next.user = sys.user ∨
        sys.user.Outside ∧ next.user.Outside) :
      Effect dep sys action next
  | drain {expired : Bool} {sysret : ℤ} {next : System κ μ}
      (k : ℤ) (ringAction : RingAction)
      (hmoves : RingMoves dep sys next k ringAction)
      (haction : ringAction = .poll ∨ ringAction = .snapshot ∨
        ringAction = .publish)
      (hissued : next.issued = sys.issued)
      (hexecuted : next.executed = sys.executed)
      (huser : next.user = sys.user) :
      Effect dep sys (.worker k expired sysret) next
  | execute {expired : Bool} {sysret : ℤ} {next : System κ μ}
      (k : ℤ)
      (hmoves : RingMoves dep sys next k .execute)
      (hissued : next.issued = sys.issued)
      (hexecuted : next.executed = sys.executed ++
        [⟨k, (sys.ring k).cursorEntry.call, sys.memory⟩])
      (huser : next.user = sys.user) :
      Effect dep sys (.worker k expired sysret) next
  | write {next : System κ μ} (source : κ) (entry : SysCall)
      (hready : sys.user = .ready)
      (hentry : ∃ i j, entry =
        (dep.wrapper.prepare dep.toTableConfig source sys.memory
          (dep.route source) i j).1)
      (hmoves : RingMoves dep sys next (dep.route source)
        (.write entry))
      (hissued : next.issued = sys.issued)
      (hexecuted : next.executed = sys.executed)
      (huser :
        next.user = .advancing (dep.route source) source entry) :
      Effect dep sys (.call source) next
  | advance {next : System κ μ} (idx : ℤ) (source : κ)
      (entry : SysCall)
      (hadvancing : sys.user = .advancing idx source entry)
      (hmoves : RingMoves dep sys next idx .advance)
      (hissued : next.issued = sys.issued ++ [⟨source, idx, entry⟩])
      (hexecuted : next.executed = sys.executed)
      (huser : next.user = .marking idx) :
      Effect dep sys .user next
  | mark {next : System κ μ} (idx : ℤ)
      (hmarking : sys.user = .marking idx)
      (hmoves : RingMoves dep sys next idx .storeBusy)
      (hissued : next.issued = sys.issued)
      (hexecuted : next.executed = sys.executed)
      (huser : next.user = .ready) :
      Effect dep sys .user next

/-- What every ring action keeps of a ring, every step keeps of all rings. -/
theorem Effect.ringwise {kept : Ring → Prop}
    (hkept : ∀ ring ringAction moved, kept ring →
      ring.step dep.toTableConfig ringAction = some moved → kept moved)
    {action : SystemAction κ} (heffect : Effect dep sys action next)
    (hall : ∀ k, kept (sys.ring k)) (k : ℤ) : kept (next.ring k) := by
  have hmoved : ∀ {idx : ℤ} {ringAction : RingAction},
      RingMoves dep sys next idx ringAction → kept (next.ring k) := by
    intro idx ringAction hmoves
    by_cases hk : k = idx
    · subst idx
      exact hkept _ _ _ (hall k) hmoves.moved
    · rw [hmoves.others k hk]
      exact hall k
  cases heffect with
  | quiet hring _ _ _ =>
      rw [hring k]
      exact hall k
  | drain idx ringAction hmoves _ _ _ _ => exact hmoved hmoves
  | execute idx hmoves _ _ _ => exact hmoved hmoves
  | write source entry _ _ hmoves _ _ _ => exact hmoved hmoves
  | advance idx source entry _ hmoves _ _ _ => exact hmoved hmoves
  | mark idx _ hmoves _ _ _ => exact hmoved hmoves

theorem onRing_eq_some {k : ℤ} {action : RingAction}
    (hstep : sys.onRing dep k action = some next) :
    RingMoves dep sys next k action ∧
      next.issued = sys.issued ∧ next.executed = sys.executed ∧
      next.user = sys.user := by
  obtain ⟨ring, hring, rfl⟩ := onRing_frame hstep
  refine ⟨⟨?_, ?_⟩, rfl, rfl, rfl⟩
  · rw [hring]
    simp [System.ring]
  · intro n hne
    simp [System.ring, setWorker_of_ne _ hne]

theorem call_effect {source : κ} (hready : sys.user = .ready)
    (hstep : sys.call dep source = some next) :
    Effect dep sys (.call source) next := by
  rcases call_cases hstep with ⟨_, queued, hqueued, rfl⟩ | ⟨_, rfl⟩
  · obtain ⟨hmoves, hissued, hexecuted, _⟩ := onRing_eq_some hqueued
    exact .write source _ hready ⟨_, _, rfl⟩
      ⟨hmoves.moved, hmoves.others⟩ hissued hexecuted rfl
  · exact .quiet (fun _ => rfl) rfl rfl (Or.inl rfl)

/-- A step of the library code outside a wrapped call. -/
theorem outside_effect {action : SystemAction κ}
    (hring : ∀ k, next.ring k = sys.ring k)
    (hissued : next.issued = sys.issued)
    (hexecuted : next.executed = sys.executed)
    (hbefore : sys.user.Outside) (hafter : next.user.Outside) :
    Effect dep sys action next :=
  .quiet hring hissued hexecuted (Or.inr ⟨hbefore, hafter⟩)

theorem ring_setFlags (sys : System κ μ) (k n : ℤ)
    (flags : BitVec 32) :
    (sys.setFlags k flags).ring n = sys.ring n := by
  unfold setFlags
  rw [ring_setWorker_of_ring]
  rfl

theorem ring_setControl (sys : System κ μ) (k n : ℤ)
    (control : WorkerControl) :
    (sys.setControl k control).ring n = sys.ring n := by
  unfold setControl
  rw [ring_setWorker_of_ring]
  rfl

/-- What one step of the library code outside a wrapped call can do. -/
inductive LibraryMove (dep : Deployment κ μ) (access : FlagAccess)
    (sys : System κ μ) : System κ μ → Prop
  | testTaken (j : ℤ) (hpc : sys.user = .startTest j) :
      LibraryMove dep access sys { sys with user := .startSet j }
  | testSkipped (j : ℤ) (hpc : sys.user = .startTest j)
      (hneeds : ¬ NeedsWakeup (sys.workers j).flags) :
      LibraryMove dep access sys
        { sys with user := dep.startAt (j + 1) }
  | setWhole (j : ℤ) (hpc : sys.user = .startSet j)
      (haccess : access = .atomic) :
      LibraryMove dep access sys
        { sys.setFlags j
            ((sys.workers j).flags ||| escaStartWakeup) with
          user := .wakeupTest j }
  | setLoad (j : ℤ) (hpc : sys.user = .startSet j)
      (haccess : access = .split) :
      LibraryMove dep access sys
        { sys with user := .startSetLoaded j (sys.workers j).flags }
  | setStore (j : ℤ) (flags : BitVec 32)
      (hpc : sys.user = .startSetLoaded j flags) :
      LibraryMove dep access sys
        { sys.setFlags j (flags ||| escaStartWakeup) with
          user := .wakeupTest j }
  | wakeupTaken (j : ℤ) (hpc : sys.user = .wakeupTest j) :
      LibraryMove dep access sys { sys with user := .wakeup j }
  | wakeupSkipped (j : ℤ) (hpc : sys.user = .wakeupTest j)
      (hstarts : ¬ StartsWakeup (sys.workers j).flags) :
      LibraryMove dep access sys { sys with user := .startClear j }
  | wake (j : ℤ) (hpc : sys.user = .wakeup j) :
      LibraryMove dep access sys
        { sys.setWorker j (sys.workers j).wakeUp with
          user := .startClear j }
  | clearWhole (j : ℤ) (hpc : sys.user = .startClear j)
      (haccess : access = .atomic) :
      LibraryMove dep access sys
        { sys.setFlags j
            ((sys.workers j).flags &&& ~~~escaStartWakeup) with
          user := dep.startAt (j + 1) }
  | clearLoad (j : ℤ) (hpc : sys.user = .startClear j)
      (haccess : access = .split) :
      LibraryMove dep access sys
        { sys with user := .startClearLoaded j (sys.workers j).flags }
  | clearStore (j : ℤ) (flags : BitVec 32)
      (hpc : sys.user = .startClearLoaded j flags) :
      LibraryMove dep access sys
        { sys.setFlags j (flags &&& ~~~escaStartWakeup) with
          user := dep.startAt (j + 1) }
  | flushed (hpc : sys.user = .flushWait) :
      LibraryMove dep access sys
        { sys with user := .ready, batchNum := 0 }

/-- A step of the user thread is one of the library code, or a ring action of
the wrapped call in progress. -/
theorem userStep_cases
    (hstep : sys.userStep dep access = some next) :
    LibraryMove dep access sys next ∨
      (∃ idx source entry moved,
        sys.user = .advancing idx source entry ∧
          sys.onRing dep idx .advance = some moved ∧
          next = { moved with
            user := .marking idx
            issued := sys.issued ++ [⟨source, idx, entry⟩] }) ∨
      ∃ idx moved,
        sys.user = .marking idx ∧
          sys.onRing dep idx .storeBusy = some moved ∧
          next = { moved with user := .ready } := by
  unfold userStep at hstep
  split at hstep
  next => simp at hstep
  next j hpc =>
    left
    split at hstep
    next =>
      cases hstep
      exact .testTaken j hpc
    next hneeds =>
      cases hstep
      exact .testSkipped j hpc hneeds
  next j hpc =>
    left
    cases access with
    | atomic =>
        cases hstep
        exact .setWhole j hpc rfl
    | split =>
        cases hstep
        exact .setLoad j hpc rfl
  next j flags hpc =>
    cases hstep
    exact Or.inl (.setStore j flags hpc)
  next j hpc =>
    left
    split at hstep
    next =>
      cases hstep
      exact .wakeupTaken j hpc
    next hstarts =>
      cases hstep
      exact .wakeupSkipped j hpc hstarts
  next j hpc =>
    cases hstep
    exact Or.inl (.wake j hpc)
  next j hpc =>
    left
    cases access with
    | atomic =>
        cases hstep
        exact .clearWhole j hpc rfl
    | split =>
        cases hstep
        exact .clearLoad j hpc rfl
  next j flags hpc =>
    cases hstep
    exact Or.inl (.clearStore j flags hpc)
  next idx source entry hpc =>
    split at hstep
    next => simp at hstep
    next moved hmoved =>
      cases hstep
      exact Or.inr (Or.inl ⟨idx, source, entry, moved, hpc, hmoved, rfl⟩)
  next idx hpc =>
    split at hstep
    next => simp at hstep
    next moved hmoved =>
      cases hstep
      exact Or.inr (Or.inr ⟨idx, moved, hpc, hmoved, rfl⟩)
  next hpc =>
    cases hstep
    exact Or.inl (.flushed hpc)

namespace LibraryMove

theorem outside (hmove : LibraryMove dep access sys next) :
    sys.user.Outside := by
  cases hmove with
  | testTaken j hpc => rw [hpc]; trivial
  | testSkipped j hpc _ => rw [hpc]; trivial
  | setWhole j hpc _ => rw [hpc]; trivial
  | setLoad j hpc _ => rw [hpc]; trivial
  | setStore j flags hpc => rw [hpc]; trivial
  | wakeupTaken j hpc => rw [hpc]; trivial
  | wakeupSkipped j hpc _ => rw [hpc]; trivial
  | wake j hpc => rw [hpc]; trivial
  | clearWhole j hpc _ => rw [hpc]; trivial
  | clearLoad j hpc _ => rw [hpc]; trivial
  | clearStore j flags hpc => rw [hpc]; trivial
  | flushed hpc => rw [hpc]; trivial

theorem effect (hmove : LibraryMove dep access sys next) :
    Effect dep sys .user next := by
  have houtside := hmove.outside
  cases hmove with
  | testTaken j hpc =>
      exact outside_effect (fun _ => rfl) rfl rfl houtside trivial
  | testSkipped j hpc hneeds =>
      exact outside_effect (fun _ => rfl) rfl rfl houtside
        (dep.startAt_outside _)
  | setWhole j hpc haccess =>
      exact outside_effect (sys.ring_setFlags j · _) rfl rfl houtside
        trivial
  | setLoad j hpc haccess =>
      exact outside_effect (fun _ => rfl) rfl rfl houtside trivial
  | setStore j flags hpc =>
      exact outside_effect (sys.ring_setFlags j · _) rfl rfl houtside
        trivial
  | wakeupTaken j hpc =>
      exact outside_effect (fun _ => rfl) rfl rfl houtside trivial
  | wakeupSkipped j hpc hstarts =>
      exact outside_effect (fun _ => rfl) rfl rfl houtside trivial
  | wake j hpc =>
      exact outside_effect
        (sys.ring_setWorker_of_ring (KernelWorker.wakeUp_ring _)) rfl rfl
        houtside trivial
  | clearWhole j hpc haccess =>
      exact outside_effect (sys.ring_setFlags j · _) rfl rfl houtside
        (dep.startAt_outside _)
  | clearLoad j hpc haccess =>
      exact outside_effect (fun _ => rfl) rfl rfl houtside trivial
  | clearStore j flags hpc =>
      exact outside_effect (sys.ring_setFlags j · _) rfl rfl houtside
        (dep.startAt_outside _)
  | flushed hpc =>
      exact outside_effect (fun _ => rfl) rfl rfl houtside trivial

end LibraryMove

theorem userStep_effect
    (hstep : sys.userStep dep access = some next) :
    Effect dep sys .user next := by
  rcases userStep_cases hstep with
    hmove | ⟨idx, source, entry, moved, hpc, hmoved, rfl⟩ |
      ⟨idx, moved, hpc, hmoved, rfl⟩
  · exact hmove.effect
  · obtain ⟨hmoves, _, hexecuted, _⟩ := onRing_eq_some hmoved
    exact .advance idx source entry hpc ⟨hmoves.moved, hmoves.others⟩ rfl
      hexecuted rfl
  · obtain ⟨hmoves, hissued, hexecuted, _⟩ := onRing_eq_some hmoved
    exact .mark idx hpc ⟨hmoves.moved, hmoves.others⟩ hissued hexecuted
      rfl

theorem executeEntry_effect {k sysret : ℤ} {expired : Bool}
    (hstep : sys.executeEntry dep k sysret = some next) :
    Effect dep sys (.worker k expired sysret) next := by
  obtain ⟨done, hdone, hnext⟩ := executeEntry_cases hstep
  obtain ⟨hmoves, hissued, _, huser⟩ := onRing_eq_some hdone
  have hrings : ∀ n, next.ring n = done.ring n := by
    intro n
    rw [hnext]
    exact done.ring_setControl k n _
  refine .execute k ⟨?_, ?_⟩ ?_ ?_ ?_
  · rw [hrings]
    exact hmoves.moved
  · intro n hne
    rw [hrings]
    exact hmoves.others n hne
  · rw [hnext]
    exact hissued
  · rw [hnext]
  · rw [hnext]
    exact huser

theorem batchStep_effect {k sysret : ℤ} {expired : Bool}
    (hstep : sys.batchStep dep k sysret = some next) :
    Effect dep sys (.worker k expired sysret) next := by
  rcases batchStep_cases hstep with
    rfl | ⟨ringAction, haction, hring⟩ | hexecute
  · exact .quiet (sys.ring_setControl k · _) rfl rfl (Or.inl rfl)
  · obtain ⟨hmoves, hissued, hexecuted, huser⟩ := onRing_eq_some hring
    exact .drain k ringAction hmoves haction hissued hexecuted huser
  · exact executeEntry_effect hexecute

theorem scanStep_effect {action : SystemAction κ} (sys : System κ μ)
    (k n : ℤ) :
    Effect dep sys action (sys.scanStep dep k n) := by
  unfold scanStep
  split
  · split
    · exact .quiet (sys.ring_setControl k · _) rfl rfl (Or.inl rfl)
    · exact .quiet (sys.ring_setControl k · _) rfl rfl (Or.inl rfl)
  · exact .quiet (sys.ring_setControl k · _) rfl rfl (Or.inl rfl)

/-- A worker step is one of its batch loop, of its completion scan or of its
idle path. -/
theorem workerStep_cases {k sysret : ℤ} {expired : Bool}
    (hstep : sys.workerStep dep access k expired sysret = some next) :
    ((sys.workers k).control = .running ∧
        sys.batchStep dep k sysret = some next) ∨
      (∃ n, (sys.workers k).control = .scanning n ∧
        next = sys.scanStep dep k n) ∨
      ∃ worker,
        (sys.workers k).idleStep access expired = some worker ∧
          next = sys.setWorker k worker := by
  unfold workerStep at hstep
  split at hstep
  next hcontrol => exact Or.inl ⟨hcontrol, hstep⟩
  next n hcontrol =>
    simp only [Option.some.injEq] at hstep
    exact Or.inr (Or.inl ⟨n, hcontrol, hstep.symm⟩)
  next =>
    split at hstep
    next => simp at hstep
    next worker hworker =>
      simp only [Option.some.injEq] at hstep
      exact Or.inr (Or.inr ⟨worker, hworker, hstep.symm⟩)

theorem workerStep_effect {k sysret : ℤ} {expired : Bool}
    (hstep : sys.workerStep dep access k expired sysret = some next) :
    Effect dep sys (.worker k expired sysret) next := by
  rcases workerStep_cases hstep with
    ⟨_, hbatch⟩ | ⟨n, _, rfl⟩ | ⟨worker, hidle, rfl⟩
  · exact batchStep_effect hbatch
  · exact scanStep_effect sys k n
  · exact .quiet
      (sys.ring_setWorker_of_ring
        (KernelWorker.idleStep_move hidle).ring_eq)
      rfl rfl (Or.inl rfl)

/-- A step of worker `n` leaves the user thread and the other workers alone.
In the batch loop it changes nothing of its own waiting state either. -/
structure WorkerFrame (access : FlagAccess)
    (sys next : System κ μ) (n : ℤ) : Prop where
  user_eq : next.user = sys.user
  inSegment_eq : next.inSegment = sys.inSegment
  others : ∀ k, k ≠ n → next.workers k = sys.workers k
  own : KernelWorker.IdleMove access (sys.workers n) (next.workers n) ∨
    (next.workers n).flags = (sys.workers n).flags ∧
      (next.workers n).task = (sys.workers n).task ∧
      (next.workers n).queued = (sys.workers n).queued ∧
      (next.workers n).control.InBatch

theorem setWorker_frame (sys : System κ μ) {n : ℤ}
    {worker : KernelWorker}
    (hflags : worker.flags = (sys.workers n).flags)
    (htask : worker.task = (sys.workers n).task)
    (hqueued : worker.queued = (sys.workers n).queued)
    (hcontrol : worker.control.InBatch) :
    WorkerFrame access sys (sys.setWorker n worker) n where
  user_eq := rfl
  inSegment_eq := rfl
  others := fun _ hne => sys.setWorker_of_ne hne worker
  own := by
    rw [setWorker_self]
    exact Or.inr ⟨hflags, htask, hqueued, hcontrol⟩

theorem onRing_workerFrame {n : ℤ} {action : RingAction}
    (hcontrol : (sys.workers n).control = .running)
    (hstep : sys.onRing dep n action = some next) :
    WorkerFrame access sys next n := by
  obtain ⟨ring, _, rfl⟩ := onRing_frame hstep
  refine sys.setWorker_frame rfl rfl rfl ?_
  change (sys.workers n).control.InBatch
  rw [hcontrol]
  trivial

theorem executeEntry_workerFrame {n sysret : ℤ}
    (hstep : sys.executeEntry dep n sysret = some next) :
    WorkerFrame access sys next n := by
  obtain ⟨done, hdone, rfl⟩ := executeEntry_cases hstep
  obtain ⟨ring, _, rfl⟩ := onRing_frame hdone
  refine ⟨rfl, rfl, ?_, Or.inr ?_⟩
  · intro k hne
    simp [setControl, setWorker, hne]
  · simp only [setControl, setWorker_self]
    refine ⟨trivial, trivial, trivial, ?_⟩
    split <;> trivial

theorem batchStep_workerFrame {n sysret : ℤ}
    (hcontrol : (sys.workers n).control = .running)
    (hstep : sys.batchStep dep n sysret = some next) :
    WorkerFrame access sys next n := by
  rcases batchStep_cases hstep with
    rfl | ⟨ringAction, _, hring⟩ | hexecute
  · exact sys.setWorker_frame rfl rfl rfl trivial
  · exact onRing_workerFrame hcontrol hring
  · exact executeEntry_workerFrame hexecute

theorem scanStep_workerFrame (sys : System κ μ) (n m : ℤ) :
    WorkerFrame access sys (sys.scanStep dep n m) n := by
  unfold scanStep
  split
  · split
    · exact sys.setWorker_frame rfl rfl rfl trivial
    · exact sys.setWorker_frame rfl rfl rfl trivial
  · have hframe :
        WorkerFrame access sys (sys.setControl n .running) n :=
      sys.setWorker_frame rfl rfl rfl trivial
    exact ⟨hframe.user_eq, hframe.inSegment_eq, hframe.others,
      hframe.own⟩

theorem workerStep_frame {n sysret : ℤ} {expired : Bool}
    (hstep : sys.workerStep dep access n expired sysret = some next) :
    WorkerFrame access sys next n := by
  rcases workerStep_cases hstep with
    ⟨hcontrol, hbatch⟩ | ⟨m, _, rfl⟩ | ⟨worker, hidle, rfl⟩
  · exact batchStep_workerFrame hcontrol hbatch
  · exact scanStep_workerFrame sys n m
  · refine ⟨rfl, rfl, ?_, Or.inl ?_⟩
    · intro k hne
      exact sys.setWorker_of_ne hne worker
    · rw [setWorker_self]
      exact KernelWorker.idleStep_move hidle

/-! ## Inversion of the step function -/

theorem step_batchStart
    (hstep : sys.step dep access .batchStart = some next) :
    sys.user = .ready ∧ next = sys.batchStart dep := by
  cases hpc : sys.user <;>
    simp only [step, hpc, reduceCtorEq, Option.some.injEq] at hstep
  exact ⟨rfl, hstep.symm⟩

theorem step_call {source : κ}
    (hstep : sys.step dep access (.call source) = some next) :
    sys.user = .ready ∧ sys.call dep source = some next := by
  cases hpc : sys.user <;>
    simp only [step, hpc, reduceCtorEq] at hstep
  exact ⟨rfl, hstep⟩

theorem step_batchFlush
    (hstep : sys.step dep access .batchFlush = some next) :
    sys.user = .ready ∧ next = sys.batchFlush := by
  cases hpc : sys.user <;>
    simp only [step, hpc, reduceCtorEq, Option.some.injEq] at hstep
  exact ⟨rfl, hstep.symm⟩

theorem step_worker {k sysret : ℤ} {expired : Bool}
    (hstep : sys.step dep access (.worker k expired sysret) =
      some next) :
    dep.InSet k ∧
      sys.workerStep dep access k expired sysret = some next := by
  simp only [step] at hstep
  split at hstep
  next hset => exact ⟨hset, hstep⟩
  next => simp at hstep

theorem step_effect {action : SystemAction κ}
    (hstep : sys.step dep access action = some next) :
    Effect dep sys action next := by
  cases action with
  | batchStart =>
      obtain ⟨hready, rfl⟩ := step_batchStart hstep
      exact outside_effect (fun _ => rfl) rfl rfl
        (by rw [hready]; trivial) (dep.startAt_outside _)
  | call source =>
      obtain ⟨hready, hcall⟩ := step_call hstep
      exact call_effect hready hcall
  | batchFlush =>
      obtain ⟨hready, rfl⟩ := step_batchFlush hstep
      unfold batchFlush
      split
      · exact .quiet (fun _ => rfl) rfl rfl (Or.inl rfl)
      · exact outside_effect (fun _ => rfl) rfl rfl
          (by rw [hready]; trivial) trivial
  | user => exact userStep_effect hstep
  | worker k expired sysret =>
      exact workerStep_effect (step_worker hstep).2

end System

end Saio
