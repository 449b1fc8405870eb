import Saio.SystemEffect
import Saio.Wrappers
import Mathlib.Tactic

/-!
# A sleeping worker and its advertisement

Every update of the flag word is a load and a store here, and worker and
`batch_start` update different bits of the same word.  A value that
`batch_start` has loaded before the worker stores its advertisement wipes it
out again when it is written back.

The invariant follows the advertisement from its store to the end of the
sleep.  It needs one condition, at that store: no loaded value that is still
to be written back lacks the bit.
-/

namespace Saio

open SystemAction

variable {κ μ : Type} {dep : Deployment κ μ} {sys next final : System κ μ}
  {pages : ℤ → ℕ → ℕ → TableEntry} {memory : μ}
  {actions : List (SystemAction κ)}

/-- The worker has stored its advertisement and not yet left `schedule`. -/
def WorkerControl.Declared : WorkerControl → Prop
  | .advertised => True
  | .committed => True
  | .blocked => True
  | _ => False

/-- The value that `batch_start` has loaded from the flags of ring `k` and not
yet written back. -/
def UserPc.loadedFlags (k : ℤ) : UserPc κ → Option (BitVec 32)
  | .startSetLoaded j flags => if j = k then some flags else none
  | .startClearLoaded j flags => if j = k then some flags else none
  | _ => none

@[simp] theorem Deployment.startAt_loadedFlags (dep : Deployment κ μ)
    (j k : ℤ) : (dep.startAt j).loadedFlags k = none := by
  unfold Deployment.startAt
  split <;> rfl

/-- From the store of the advertisement on only the control point moves. -/
theorem KernelWorker.IdleMove.of_declared {worker moved : KernelWorker}
    (hmove : IdleMove .split worker moved)
    (hdeclared : moved.control.Declared) :
    (∃ flags, worker.control = .setLoaded flags ∧
        moved.flags = flags ||| escaWorkerNeedWakeup) ∨
      worker.control.Declared ∧ moved.flags = worker.flags := by
  cases hmove with
  | setWhole _ haccess => contradiction
  | setStore flags hcontrol => exact Or.inl ⟨flags, hcontrol, rfl⟩
  | commit hcontrol _ =>
      right
      rw [hcontrol]
      exact ⟨trivial, rfl⟩
  | sleep hcontrol _ =>
      right
      rw [hcontrol]
      exact ⟨trivial, rfl⟩
  | _ => exact hdeclared.elim

namespace System

/-- The worker whose next step stores its advertisement. -/
def storingWorker (sys : System κ μ) : SystemAction κ → Option ℤ
  | .worker k _ _ =>
      match (sys.workers k).control with
      | .setLoaded _ => some k
      | _ => none
  | _ => none

/-- The worker's store of its advertisement does not fall between a load of
`batch_start` that missed the bit and the store that follows it. -/
def StoresSeen (sys : System κ μ) (action : SystemAction κ) : Prop :=
  ∀ k ∈ sys.storingWorker action,
    ∀ flags ∈ sys.user.loadedFlags k, NeedsWakeup flags

instance (sys : System κ μ) (action : SystemAction κ) :
    Decidable (sys.StoresSeen action) :=
  have : DecidablePred fun k =>
      ∀ flags ∈ sys.user.loadedFlags k, NeedsWakeup flags :=
    fun _ => Option.decidableForallMem _
  Option.decidableForallMem _

def Advertises (sys : System κ μ) (k : ℤ) : Prop :=
  (sys.workers k).control.Declared →
    NeedsWakeup (sys.workers k).flags ∧
      ∀ flags ∈ sys.user.loadedFlags k, NeedsWakeup flags

namespace Advertises

theorem of_sameFlags {k : ℤ} (hadvertises : sys.Advertises k)
    (hcontrol : (next.workers k).control = (sys.workers k).control)
    (hflags : (next.workers k).flags = (sys.workers k).flags)
    (hloaded : ∀ flags ∈ next.user.loadedFlags k,
      flags ∈ sys.user.loadedFlags k ∨ flags = (sys.workers k).flags) :
    next.Advertises k := by
  intro hdeclared
  rw [hcontrol] at hdeclared
  obtain ⟨hneeds, hseen⟩ := hadvertises hdeclared
  refine ⟨by rw [hflags]; exact hneeds, ?_⟩
  intro flags hmem
  rcases hloaded flags hmem with hold | rfl
  · exact hseen flags hold
  · exact hneeds

/-- A step of the user thread that writes no flag word. -/
theorem of_sameWorkers {k : ℤ} (hadvertises : sys.Advertises k)
    (hworkers : next.workers = sys.workers)
    (hloaded : ∀ flags ∈ next.user.loadedFlags k,
      flags ∈ sys.user.loadedFlags k ∨ flags = (sys.workers k).flags) :
    next.Advertises k :=
  hadvertises.of_sameFlags (by rw [hworkers]) (by rw [hworkers]) hloaded

/-- The store that writes back a loaded value. -/
theorem afterStore {k j : ℤ} (hadvertises : sys.Advertises k)
    {loaded stored : BitVec 32} {user : UserPc κ}
    (hloaded : sys.user.loadedFlags j = some loaded)
    (hstored : NeedsWakeup stored ↔ NeedsWakeup loaded)
    (huser : user.loadedFlags k = none) :
    ({ sys.setFlags j stored with user := user } :
      System κ μ).Advertises k := by
  intro hdeclared
  refine ⟨?_, ?_⟩
  · by_cases hk : k = j
    · subst j
      have hcontrol : (sys.workers k).control.Declared := by
        simpa [setFlags] using hdeclared
      have hneeds := (hadvertises hcontrol).2 loaded hloaded
      simpa [setFlags] using hstored.mpr hneeds
    · have hsame : (sys.setFlags j stored).workers k = sys.workers k :=
        sys.setWorker_of_ne hk _
      change (sys.setFlags j stored).workers k |>.control.Declared
        at hdeclared
      rw [hsame] at hdeclared
      change NeedsWakeup ((sys.setFlags j stored).workers k).flags
      rw [hsame]
      exact (hadvertises hdeclared).1
  · intro flags hmem
    change flags ∈ user.loadedFlags k at hmem
    rw [huser] at hmem
    contradiction

theorem afterOnRing {k idx : ℤ} (hadvertises : sys.Advertises k)
    {ringAction : RingAction}
    (hmoved : sys.onRing dep idx ringAction = some next) :
    next.Advertises k := by
  obtain ⟨ring, _, rfl⟩ := onRing_frame hmoved
  apply hadvertises.of_sameFlags
  · by_cases hk : k = idx
    · subst idx
      rw [setWorker_self]
    · rw [setWorker_of_ne _ hk]
  · by_cases hk : k = idx
    · subst idx
      rw [setWorker_self]
    · rw [setWorker_of_ne _ hk]
  · exact fun _ hmem => Or.inl hmem

/-- A step of a wrapped call, which touches a ring and no flags. -/
theorem withUser {k : ℤ} (hadvertises : sys.Advertises k)
    (hworkers : next.workers = sys.workers)
    (huser : next.user.loadedFlags k = none) :
    next.Advertises k := by
  refine hadvertises.of_sameWorkers hworkers ?_
  intro flags hmem
  rw [huser] at hmem
  contradiction

theorem afterLoad {k j : ℤ} (hadvertises : sys.Advertises k)
    (hworkers : next.workers = sys.workers)
    (huser : next.user.loadedFlags k =
      if j = k then some (sys.workers j).flags else none) :
    next.Advertises k := by
  refine hadvertises.of_sameWorkers hworkers ?_
  intro flags hmem
  right
  rw [huser] at hmem
  by_cases hj : j = k
  · subst j
    simpa [eq_comm] using hmem
  · simp [hj] at hmem

theorem afterLibrary {k : ℤ} (hadvertises : sys.Advertises k)
    (hmove : LibraryMove dep .split sys next) :
    next.Advertises k := by
  cases hmove with
  | testTaken j hpc => exact hadvertises.withUser rfl rfl
  | testSkipped j hpc hneeds =>
      exact hadvertises.withUser rfl (dep.startAt_loadedFlags _ _)
  | setWhole j hpc haccess => contradiction
  | setLoad j hpc haccess => exact hadvertises.afterLoad rfl rfl
  | setStore j flags hpc =>
      have hloaded : sys.user.loadedFlags j = some flags := by
        rw [hpc]
        simp [UserPc.loadedFlags]
      exact hadvertises.afterStore hloaded (needsWakeup_or_start flags) rfl
  | wakeupTaken j hpc => exact hadvertises.withUser rfl rfl
  | wakeupSkipped j hpc hstarts => exact hadvertises.withUser rfl rfl
  | wake j hpc =>
      apply hadvertises.of_sameFlags
      · by_cases hk : k = j
        · subst j
          simp
        · simp [setWorker_of_ne _ hk]
      · by_cases hk : k = j
        · subst j
          simp
        · simp [setWorker_of_ne _ hk]
      · intro flags hmem
        simp [UserPc.loadedFlags] at hmem
  | clearWhole j hpc haccess => contradiction
  | clearLoad j hpc haccess => exact hadvertises.afterLoad rfl rfl
  | clearStore j flags hpc =>
      have hloaded : sys.user.loadedFlags j = some flags := by
        rw [hpc]
        simp [UserPc.loadedFlags]
      exact hadvertises.afterStore hloaded (needsWakeup_and_start flags)
        (dep.startAt_loadedFlags _ _)
  | flushed hpc => exact hadvertises.withUser rfl rfl

theorem afterUser {k : ℤ} (hadvertises : sys.Advertises k)
    (hstep : sys.userStep dep .split = some next) :
    next.Advertises k := by
  rcases userStep_cases hstep with
    hmove | ⟨idx, source, entry, moved, hpc, hmoved, rfl⟩ |
      ⟨idx, moved, hpc, hmoved, rfl⟩
  · exact hadvertises.afterLibrary hmove
  · exact (hadvertises.afterOnRing hmoved).withUser rfl rfl
  · exact (hadvertises.afterOnRing hmoved).withUser rfl rfl

theorem afterCall {k : ℤ} (hadvertises : sys.Advertises k) {source : κ}
    (hready : sys.user = .ready)
    (hstep : sys.call dep source = some next) :
    next.Advertises k := by
  rcases call_cases hstep with ⟨_, queued, hqueued, rfl⟩ | ⟨_, rfl⟩
  · exact (hadvertises.afterOnRing hqueued).withUser rfl rfl
  · exact hadvertises.withUser rfl (by rw [hready]; rfl)

theorem afterWorker {k n : ℤ} (hadvertises : sys.Advertises k)
    {expired : Bool} {sysret : ℤ}
    (hseen : sys.StoresSeen (.worker n expired sysret))
    (hframe : WorkerFrame .split sys next n) :
    next.Advertises k := by
  by_cases hk : k = n
  · subst n
    intro hdeclared
    rw [hframe.user_eq]
    rcases hframe.own with hidle | ⟨_, _, _, hbatch⟩
    · rcases hidle.of_declared hdeclared with
        ⟨flags, hcontrol, hflags⟩ | ⟨hbefore, hflags⟩
      · refine ⟨?_, hseen k (by simp [storingWorker, hcontrol])⟩
        rw [hflags]
        exact needsWakeup_set flags
      · rw [hflags]
        exact hadvertises hbefore
    · cases hcontrol : (next.workers k).control <;>
        rw [hcontrol] at hdeclared hbatch <;>
        first
        | exact hdeclared.elim
        | exact hbatch.elim
  · apply hadvertises.of_sameFlags
    · rw [hframe.others k hk]
    · rw [hframe.others k hk]
    · rw [hframe.user_eq]
      exact fun _ hmem => Or.inl hmem

theorem afterStep {k : ℤ} (hadvertises : sys.Advertises k)
    {action : SystemAction κ} (hseen : sys.StoresSeen action)
    (hstep : sys.step dep .split action = some next) :
    next.Advertises k := by
  cases action with
  | batchStart =>
      obtain ⟨_, rfl⟩ := step_batchStart hstep
      exact hadvertises.withUser rfl (dep.startAt_loadedFlags _ _)
  | call source =>
      obtain ⟨hready, hcall⟩ := step_call hstep
      exact hadvertises.afterCall hready hcall
  | batchFlush =>
      obtain ⟨hready, rfl⟩ := step_batchFlush hstep
      unfold batchFlush
      split
      · exact hadvertises.withUser rfl (by rw [hready]; rfl)
      · exact hadvertises.withUser rfl rfl
  | user => exact hadvertises.afterUser hstep
  | worker n expired sysret =>
      exact hadvertises.afterWorker hseen
        (workerStep_frame (step_worker hstep).2)

end Advertises

def oneRedis : Deployment RedisCall Unit :=
  ⟨oneWorkerSet, redis .x86⟩

end System

end Saio
