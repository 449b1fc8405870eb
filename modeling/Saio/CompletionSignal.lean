import Saio.DescriptorOrder
import Mathlib.Tactic

/-!
# The completion signal of a set

After every entry it has executed, the first worker of a set looks through the
counters `submitted` of all workers of the set, and signals `wq` if all of
them are zero.  A counter is zero between two batches, whatever has been
queued since, and nobody looks through the counters after an entry of another
worker.  So the signal may come while entries are pending, and need not come
once the last one has been executed.

It comes in time along the runs in which the first worker ends a batch only
with the last pending entry of the set, and no other worker executes the last
pending one.
-/

namespace Saio

variable {κ μ : Type} {dep : Deployment κ μ} {access : FlagAccess}
  {sys next final : System κ μ} {pages : ℤ → ℕ → ℕ → TableEntry}
  {memory : μ} {actions : List (SystemAction κ)} {k : ℤ}

namespace Deployment

instance (dep : Deployment κ μ) (condition : ℤ → Prop)
    [DecidablePred condition] :
    Decidable (∀ k, dep.InSet k → condition k) :=
  decidable_of_iff
    (∀ k ∈ Int.range dep.firstRing (dep.firstRing + dep.ratio),
      condition k) (by
    simp only [Int.mem_range_iff, InSet])

theorem inSet_firstRing (dep : Deployment κ μ) :
    dep.InSet dep.firstRing := by
  have hratio := dep.ratio_pos
  unfold InSet
  omega

/-- Only the first ring of the set is divisible by `RATIO`. -/
theorem eq_firstRing_of_tmod (hset : dep.InSet k)
    (hzero : k.tmod dep.ratio = 0) : k = dep.firstRing := by
  obtain ⟨hlow, hhigh⟩ := hset
  have hdvd : (dep.ratio : ℤ) ∣ k - dep.firstRing :=
    dvd_sub (Int.dvd_of_tmod_eq_zero hzero) (dvd_mul_left _ _)
  have hsame := Int.eq_zero_of_dvd_of_nonneg_of_lt (by omega) (by omega)
    hdvd
  omega

end Deployment

namespace Ring

variable {cfg : TableConfig} {ring moved : Ring}

theorem pending_eq_nil_iff :
    ring.pending = [] ↔ ring.issued.length ≤ ring.executed.length := by
  unfold pending
  exact List.drop_eq_nil_iff

theorem length_pending :
    ring.pending.length = ring.issued.length - ring.executed.length := by
  unfold pending
  exact List.length_drop

/-- Outside its batch loop a worker's counter is zero. -/
def CounterIdle (ring : Ring) : Prop :=
  ring.worker ≠ .drain → ring.submitted = 0

theorem CounterIdle.afterStep (hidle : ring.CounterIdle)
    {action : RingAction} (hstep : ring.step cfg action = some moved) :
    moved.CounterIdle := by
  cases action with
  | write call =>
      obtain ⟨_, rfl⟩ := step_write hstep
      exact hidle
  | advance =>
      obtain ⟨i, j, call, _, _, rfl⟩ := step_advance hstep
      exact hidle
  | storeBusy =>
      obtain ⟨i, j, _, rfl⟩ := step_storeBusy hstep
      exact hidle
  | poll =>
      obtain ⟨hpoll, rfl | ⟨_, rfl⟩⟩ := step_poll hstep
      · exact hidle
      · intro _
        exact hidle (by simp [hpoll])
  | snapshot =>
      obtain ⟨_, rfl⟩ := step_snapshot hstep
      exact fun hnot => absurd rfl hnot
  | execute =>
      obtain ⟨hdrain, _, rfl⟩ := step_execute hstep
      exact fun hnot => absurd hdrain hnot
  | publish =>
      obtain ⟨_, hzero, rfl⟩ := step_publish hstep
      exact fun _ => hzero

/-- A non-zero counter leaves an entry pending. -/
theorem CounterIdle.pending_ne_nil (hidle : ring.CounterIdle)
    (hgood : ring.Good cfg) (hsubmitted : ring.submitted ≠ 0) :
    ring.pending ≠ [] := by
  have hdrain : ring.worker = .drain := by
    by_contra hnot
    exact hsubmitted (hidle hnot)
  obtain ⟨remaining, _, hle⟩ :=
    hgood.executed_lt_of_submitted hdrain hsubmitted
  rw [ne_eq, pending_eq_nil_iff]
  omega

theorem length_pending_execute :
    (ring.execute cfg).pending.length = ring.pending.length - 1 := by
  rw [length_pending, length_pending]
  simp only [execute, RingBase.execute_executed, List.length_append,
    List.length_singleton]
  omega

end Ring

namespace System

/-! ## What is promised -/

/-- Nothing is pending on any ring of the set. -/
def AllExecuted (dep : Deployment κ μ) (sys : System κ μ) : Prop :=
  ∀ k, dep.InSet k → (sys.ring k).pending = []

/-- The step is the `wake_up_interruptible` on `wq` of the set. -/
def Signals (dep : Deployment κ μ) (sys : System κ μ) :
    SystemAction κ → Prop
  | .worker k _ _ =>
      match (sys.workers k).control with
      | .scanning n => k + dep.ratio ≤ n
      | _ => False
  | _ => False

/-- No entry is pending when the signal is given. -/
def SignalsDone (dep : Deployment κ μ) (sys : System κ μ)
    (action : SystemAction κ) : Prop :=
  sys.Signals dep action → sys.AllExecuted dep

/-- The first worker of the set is looking through the counters. -/
def Scanning (dep : Deployment κ μ) (sys : System κ μ) : Prop :=
  ∃ n, (sys.workers dep.firstRing).control = .scanning n

/-- Once everything is executed and the scan that follows is over, a signal
has been given since the last execution. -/
def Notified (dep : Deployment κ μ) (sys : System κ μ) : Prop :=
  sys.executed ≠ [] → sys.AllExecuted dep → ¬ sys.Scanning dep →
    sys.executed.length ∈ sys.completions

/-- No signal is premature and none is missing. -/
def Punctual (dep : Deployment κ μ) (sys : System κ μ) : Prop :=
  (∀ action, sys.SignalsDone dep action) ∧ sys.Notified dep

/-! ## When it is kept -/

/-- Ring `k` holds the only pending entry of the set. -/
def OnlyPending (dep : Deployment κ μ) (sys : System κ μ) (k : ℤ) :
    Prop :=
  (sys.ring k).pending.length = 1 ∧
    ∀ n, dep.InSet n → n ≠ k → (sys.ring n).pending = []

/-- The first worker ends a batch only with the last pending entry of the set,
no other worker executes the last pending entry, and nothing is queued while
the first worker looks through the counters after the end of its batch. -/
def LeaderLast (dep : Deployment κ μ) (sys : System κ μ) :
    SystemAction κ → Prop
  | .worker k _ _ =>
      (sys.workers k).Executes →
        (k = dep.firstRing →
          toShort ((sys.ring k).submitted - 1) = 0 →
            sys.OnlyPending dep k) ∧
        (k ≠ dep.firstRing → ¬ sys.OnlyPending dep k)
  | .user =>
      (sys.advancedRing .user).isSome = true →
        (sys.ring dep.firstRing).submitted = 0 → ¬ sys.Scanning dep
  | _ => True

instance (dep : Deployment κ μ) (sys : System κ μ) :
    Decidable (sys.AllExecuted dep) :=
  inferInstanceAs (Decidable (∀ k, dep.InSet k → _ = []))

instance (dep : Deployment κ μ) (sys : System κ μ) :
    Decidable (sys.Scanning dep) :=
  match hcontrol : (sys.workers dep.firstRing).control with
  | .scanning n => isTrue ⟨n, hcontrol⟩
  | .running | .sawEmpty | .expired | .prepared | .setLoaded _
  | .advertised | .committed | .blocked | .finishing | .clearing
  | .clearLoaded _ => isFalse (by simp [Scanning, hcontrol])

instance (dep : Deployment κ μ) (sys : System κ μ) (k : ℤ) :
    Decidable (sys.OnlyPending dep k) :=
  inferInstanceAs (Decidable (_ ∧ ∀ n, dep.InSet n → n ≠ k → _ = []))

instance (dep : Deployment κ μ) (sys : System κ μ) :
    (action : SystemAction κ) → Decidable (sys.LeaderLast dep action)
  | .worker k _ _ =>
      inferInstanceAs (Decidable ((sys.workers k).Executes → _))
  | .user => inferInstanceAs (Decidable (_ = true → _ → _))
  | .batchStart => isTrue trivial
  | .call _ => isTrue trivial
  | .batchFlush => isTrue trivial

/-! ## What a step does to the scan -/

/-- What one step can do to the pending entries, the counters and the scans of
a set. -/
inductive NoticeMove (dep : Deployment κ μ) (sys : System κ μ) :
    SystemAction κ → System κ μ → Prop
  | rest {action : SystemAction κ} {next : System κ μ}
      (hpending : ∀ k, (next.ring k).pending = (sys.ring k).pending)
      (hscan : ∀ k n, (next.workers k).control = .scanning n ↔
        (sys.workers k).control = .scanning n)
      (hcounter : ∀ k n, (sys.workers k).control = .scanning n →
        (next.ring k).submitted = (sys.ring k).submitted)
      (hexecuted : next.executed = sys.executed)
      (hcompletions : next.completions = sys.completions) :
      NoticeMove dep sys action next
  | advance {next : System κ μ} (idx : ℤ)
      (hadvanced : sys.advancedRing .user = some idx)
      (hpending : ∃ submission,
        (next.ring idx).issued = (sys.ring idx).issued ++ [submission] ∧
          (next.ring idx).executed = (sys.ring idx).executed)
      (hothers : ∀ k, k ≠ idx →
        (next.ring k).pending = (sys.ring k).pending)
      (hcontrol : ∀ k,
        (next.workers k).control = (sys.workers k).control)
      (hcounter : ∀ k,
        (next.ring k).submitted = (sys.ring k).submitted)
      (hexecuted : next.executed = sys.executed)
      (hcompletions : next.completions = sys.completions) :
      NoticeMove dep sys .user next
  | execute {expired : Bool} {sysret : ℤ} {next : System κ μ} (k : ℤ)
      (hset : dep.InSet k) (hexecutes : (sys.workers k).Executes)
      (hring : next.ring k = (sys.ring k).execute dep.toTableConfig)
      (hothers : ∀ n, n ≠ k → next.workers n = sys.workers n)
      (hcontrol : (next.workers k).control =
        if k.tmod dep.ratio = 0 then .scanning k else .running) :
      NoticeMove dep sys (.worker k expired sysret) next
  | scan {expired : Bool} {sysret : ℤ} (k n : ℤ)
      (hset : dep.InSet k)
      (hcontrol : (sys.workers k).control = .scanning n) :
      NoticeMove dep sys (.worker k expired sysret)
        (sys.scanStep dep k n)

/-- A change of one worker that keeps its pending entries, its scan and, while
it scans, its counter. -/
theorem rest_of_setWorker {action : SystemAction κ} {j : ℤ}
    {worker : KernelWorker}
    (hworkers : next.workers = (sys.setWorker j worker).workers)
    (hpending : worker.ring.pending = (sys.ring j).pending)
    (hscan : ∀ n, worker.control = .scanning n ↔
      (sys.workers j).control = .scanning n)
    (hcounter : ∀ n, (sys.workers j).control = .scanning n →
      worker.ring.submitted = (sys.ring j).submitted)
    (hexecuted : next.executed = sys.executed)
    (hcompletions : next.completions = sys.completions) :
    NoticeMove dep sys action next := by
  have hown : next.workers j = worker := by
    rw [hworkers, setWorker_self]
  have hothers : ∀ k, k ≠ j → next.workers k = sys.workers k := by
    intro k hk
    rw [hworkers, setWorker_of_ne _ hk]
  refine .rest ?_ ?_ ?_ hexecuted hcompletions
  · intro k
    unfold ring
    by_cases hk : k = j
    · subst j
      rw [hown]
      exact hpending
    · rw [hothers k hk]
  · intro k n
    by_cases hk : k = j
    · subst j
      rw [hown]
      exact hscan n
    · rw [hothers k hk]
  · intro k n hscanning
    unfold ring
    by_cases hk : k = j
    · subst j
      rw [hown]
      exact hcounter n hscanning
    · rw [hothers k hk]

theorem rest_of_sameWorkers {action : SystemAction κ}
    (hworkers : next.workers = sys.workers)
    (hexecuted : next.executed = sys.executed)
    (hcompletions : next.completions = sys.completions) :
    NoticeMove dep sys action next := by
  refine .rest ?_ ?_ ?_ hexecuted hcompletions
  · intro k
    unfold ring
    rw [hworkers]
  · intro k n
    rw [hworkers]
  · intro k n _
    unfold ring
    rw [hworkers]

theorem LibraryMove.notice (hmove : LibraryMove dep access sys next) :
    NoticeMove dep sys .user next := by
  cases hmove with
  | testTaken j hpc => exact rest_of_sameWorkers rfl rfl rfl
  | testSkipped j hpc _ => exact rest_of_sameWorkers rfl rfl rfl
  | setWhole j hpc _ =>
      exact rest_of_setWorker rfl rfl (fun _ => Iff.rfl) (fun _ _ => rfl)
        rfl rfl
  | setLoad j hpc _ => exact rest_of_sameWorkers rfl rfl rfl
  | setStore j flags hpc =>
      exact rest_of_setWorker rfl rfl (fun _ => Iff.rfl) (fun _ _ => rfl)
        rfl rfl
  | wakeupTaken j hpc => exact rest_of_sameWorkers rfl rfl rfl
  | wakeupSkipped j hpc _ => exact rest_of_sameWorkers rfl rfl rfl
  | wake j hpc =>
      refine rest_of_setWorker rfl ?_ ?_ ?_ rfl rfl
      · rw [KernelWorker.wakeUp_ring]
        rfl
      · intro n
        rw [KernelWorker.wakeUp_control]
      · intro n _
        rw [KernelWorker.wakeUp_ring]
        rfl
  | clearWhole j hpc _ =>
      exact rest_of_setWorker rfl rfl (fun _ => Iff.rfl) (fun _ _ => rfl)
        rfl rfl
  | clearLoad j hpc _ => exact rest_of_sameWorkers rfl rfl rfl
  | clearStore j flags hpc =>
      exact rest_of_setWorker rfl rfl (fun _ => Iff.rfl) (fun _ _ => rfl)
        rfl rfl
  | flushed hpc => exact rest_of_sameWorkers rfl rfl rfl

/-- A ring action that leaves the histories and the counter alone. -/
theorem rest_of_onRing {action : SystemAction κ} {ringAction : RingAction}
    {moved : System κ μ}
    (hmoved : sys.onRing dep k ringAction = some moved)
    (hpending : ∀ ring,
      (sys.ring k).step dep.toTableConfig ringAction = some ring →
        ring.pending = (sys.ring k).pending)
    (hcounter : ∀ n, (sys.workers k).control = .scanning n → ∀ ring,
      (sys.ring k).step dep.toTableConfig ringAction = some ring →
        ring.submitted = (sys.ring k).submitted)
    (hworkers : next.workers = moved.workers)
    (hexecuted : next.executed = moved.executed)
    (hcompletions : next.completions = moved.completions) :
    NoticeMove dep sys action next := by
  obtain ⟨ring, hstep, rfl⟩ := onRing_frame hmoved
  exact rest_of_setWorker hworkers (hpending ring hstep)
    (fun _ => Iff.rfl) (fun n hscan => hcounter n hscan ring hstep)
    hexecuted hcompletions

theorem call_notice {source : κ}
    (hstep : sys.call dep source = some next) :
    NoticeMove dep sys (.call source) next := by
  rcases call_cases hstep with ⟨_, queued, hqueued, rfl⟩ | ⟨_, rfl⟩
  · refine rest_of_onRing hqueued ?_ ?_ rfl rfl rfl
    · intro ring hring
      obtain ⟨_, rfl⟩ := Ring.step_write hring
      rfl
    · intro n _ ring hring
      obtain ⟨_, rfl⟩ := Ring.step_write hring
      rfl
  · exact rest_of_sameWorkers rfl rfl rfl

theorem userStep_notice
    (hstep : sys.userStep dep access = some next) :
    NoticeMove dep sys .user next := by
  rcases userStep_cases hstep with
    hmove | ⟨idx, source, entry, moved, hpc, hmoved, rfl⟩ |
      ⟨idx, moved, hpc, hmoved, rfl⟩
  · exact hmove.notice
  · obtain ⟨ring, hring, rfl⟩ := onRing_frame hmoved
    obtain ⟨i, j, call, _, _, rfl⟩ := Ring.step_advance hring
    refine .advance idx (by simp [advancedRing, hpc]) ?_ ?_ ?_ ?_ rfl rfl
    · refine ⟨⟨i, j, call⟩, ?_, ?_⟩
      · simp [ring, setWorker, Ring.advance]
      · simp [ring, setWorker, Ring.advance]
    · intro n hne
      simp [ring, setWorker, hne]
    · intro n
      by_cases hn : n = idx
      · simp [setWorker, hn]
      · simp [setWorker, hn]
    · intro n
      by_cases hn : n = idx
      · simp [ring, setWorker, hn, Ring.advance]
      · simp [ring, setWorker, hn]
  · refine rest_of_onRing hmoved ?_ ?_ rfl rfl rfl
    · intro ring hring
      obtain ⟨i, j, _, rfl⟩ := Ring.step_storeBusy hring
      rfl
    · intro n _ ring hring
      obtain ⟨i, j, _, rfl⟩ := Ring.step_storeBusy hring
      rfl

theorem executeEntry_notice {sysret : ℤ} {expired : Bool}
    (hset : dep.InSet k)
    (hcontrol : (sys.workers k).control = .running)
    (hstep : sys.executeEntry dep k sysret = some next) :
    NoticeMove dep sys (.worker k expired sysret) next := by
  obtain ⟨done, hdone, rfl⟩ := executeEntry_cases hstep
  obtain ⟨ring, hring, rfl⟩ := onRing_frame hdone
  obtain ⟨hdrain, hsubmitted, rfl⟩ := Ring.step_execute hring
  refine .execute k hset ⟨hcontrol, hdrain, hsubmitted⟩ ?_ ?_ ?_
  · simp [ring, setControl, setWorker]
  · intro n hne
    simp [setControl, setWorker, hne]
  · simp [setControl]

/-- The steps of the batch loop between the executions. -/
theorem batchStep_notice {sysret : ℤ} {expired : Bool}
    (hset : dep.InSet k)
    (hcontrol : (sys.workers k).control = .running)
    (hstep : sys.batchStep dep k sysret = some next) :
    NoticeMove dep sys (.worker k expired sysret) next := by
  have hnotScanning : ∀ n, (sys.workers k).control ≠ .scanning n := by
    intro n
    rw [hcontrol]
    exact nofun
  rcases batchStep_cases hstep with
    rfl | ⟨ringAction, haction, hmoved⟩ | hexecute
  · refine rest_of_setWorker rfl rfl ?_ (fun _ _ => rfl) rfl rfl
    intro n
    exact ⟨nofun, fun hscan => absurd hscan (hnotScanning n)⟩
  · refine rest_of_onRing hmoved ?_
      (fun n hscan => absurd hscan (hnotScanning n)) rfl rfl rfl
    intro ring hring
    rcases haction with rfl | rfl | rfl
    · obtain ⟨_, rfl | ⟨_, rfl⟩⟩ := Ring.step_poll hring
      · rfl
      · rfl
    · obtain ⟨_, rfl⟩ := Ring.step_snapshot hring
      rfl
    · obtain ⟨_, _, rfl⟩ := Ring.step_publish hring
      rfl
  · exact executeEntry_notice hset hcontrol hexecute

theorem step_notice {action : SystemAction κ}
    (hstep : sys.step dep access action = some next) :
    NoticeMove dep sys action next := by
  cases action with
  | batchStart =>
      obtain ⟨_, rfl⟩ := step_batchStart hstep
      exact rest_of_sameWorkers rfl rfl rfl
  | call source => exact call_notice (step_call hstep).2
  | batchFlush =>
      obtain ⟨_, rfl⟩ := step_batchFlush hstep
      unfold batchFlush
      split <;> exact rest_of_sameWorkers rfl rfl rfl
  | user => exact userStep_notice hstep
  | worker k expired sysret =>
      obtain ⟨hset, hworker⟩ := step_worker hstep
      rcases workerStep_cases hworker with
        ⟨hcontrol, hbatch⟩ | ⟨n, hcontrol, rfl⟩ | ⟨worker, hidle, rfl⟩
      · exact batchStep_notice hset hcontrol hbatch
      · exact .scan k n hset hcontrol
      · have hmove := KernelWorker.idleStep_move hidle
        refine rest_of_setWorker rfl ?_ ?_ ?_ rfl rfl
        · rw [hmove.ring_eq]
          rfl
        · intro n
          obtain ⟨hbefore, hafter⟩ := hmove.not_scanning n
          exact iff_of_false hafter hbefore
        · intro n _
          rw [hmove.ring_eq]
          rfl

/-! ## Who scans -/

/-- Only the first worker of the set scans, from its own index on. -/
def ScansFromFirst (dep : Deployment κ μ) (sys : System κ μ) : Prop :=
  ∀ k n, (sys.workers k).control = .scanning n →
    k = dep.firstRing ∧ k ≤ n

namespace ScansFromFirst

theorem of_setControl (hscans : sys.ScansFromFirst dep)
    {control : WorkerControl}
    (hworkers : next.workers = (sys.setControl k control).workers)
    (hcontrol : ∀ n, control = .scanning n →
      k = dep.firstRing ∧ k ≤ n) :
    next.ScansFromFirst dep := by
  intro m n hscanning
  rw [hworkers] at hscanning
  by_cases hm : m = k
  · subst m
    rw [setControl, setWorker_self] at hscanning
    exact hcontrol n hscanning
  · rw [setControl, setWorker_of_ne _ hm] at hscanning
    exact hscans m n hscanning

theorem afterScan (hscans : sys.ScansFromFirst dep) {n : ℤ}
    (hcontrol : (sys.workers k).control = .scanning n) :
    (sys.scanStep dep k n).ScansFromFirst dep := by
  obtain ⟨hfirst, hle⟩ := hscans k n hcontrol
  unfold scanStep
  split
  · split
    · refine hscans.of_setControl rfl ?_
      intro m hm
      cases hm
      exact ⟨hfirst, by omega⟩
    · exact hscans.of_setControl rfl nofun
  · exact hscans.of_setControl rfl nofun

theorem afterMove (hscans : sys.ScansFromFirst dep)
    {action : SystemAction κ} (hmove : NoticeMove dep sys action next) :
    next.ScansFromFirst dep := by
  cases hmove with
  | rest _ hscan _ _ _ =>
      intro m n hscanning
      exact hscans m n ((hscan m n).mp hscanning)
  | advance idx _ _ _ hcontrol _ _ _ =>
      intro m n hscanning
      rw [hcontrol] at hscanning
      exact hscans m n hscanning
  | execute k hset _ _ hothers hcontrol =>
      intro m n hscanning
      by_cases hm : m = k
      · subst m
        rw [hcontrol] at hscanning
        split at hscanning
        next hzero =>
          cases hscanning
          exact ⟨dep.eq_firstRing_of_tmod hset hzero, le_rfl⟩
        next => cases hscanning
      · rw [hothers m hm] at hscanning
        exact hscans m n hscanning
  | scan k n hset hcontrol => exact hscans.afterScan hcontrol

end ScansFromFirst

/-! ## The invariant -/

/-- What holds in every run without overrun, whoever finishes last. -/
structure Settled (dep : Deployment κ μ) (sys : System κ μ) : Prop where
  good : sys.AllGood dep
  idle : ∀ k, (sys.ring k).CounterIdle
  scans : sys.ScansFromFirst dep

theorem Settled.afterStep (hsettled : sys.Settled dep)
    {action : SystemAction κ} (hsafe : sys.NoOverrun dep action)
    (hstep : sys.step dep access action = some next) :
    next.Settled dep where
  good := hsettled.good.afterEffect hsafe (step_effect hstep)
  idle := (step_effect hstep).ringwise
    (fun _ _ _ hkept => hkept.afterStep) hsettled.idle
  scans := hsettled.scans.afterMove (step_notice hstep)

structure Watched (dep : Deployment κ μ) (sys : System κ μ) : Prop
    extends Settled dep sys where
  /-- Beyond its first index the scan has seen the own counter at zero. -/
  passed : ∀ n, (sys.workers dep.firstRing).control = .scanning n →
    n ≠ dep.firstRing → (sys.ring dep.firstRing).submitted = 0
  /-- The scan after the end of a batch looks at a set with nothing
  pending. -/
  last : sys.Scanning dep → (sys.ring dep.firstRing).submitted = 0 →
    sys.AllExecuted dep
  notified : sys.Notified dep

theorem initWorker_watched (dep : Deployment κ μ)
    (pages : ℤ → ℕ → ℕ → TableEntry) (memory : μ) :
    (dep.initWorker pages memory).Watched dep where
  good := initWorker_allGood dep pages memory
  idle := fun _ _ => rfl
  scans := nofun
  passed := nofun
  last := nofun
  notified := fun hexecuted => absurd rfl hexecuted

namespace Watched

theorem punctual (hwatched : sys.Watched dep) : sys.Punctual dep := by
  refine ⟨?_, hwatched.notified⟩
  intro action hsignals
  unfold Signals at hsignals
  split at hsignals
  next k expired sysret =>
    split at hsignals
    next n hcontrol =>
      -- the scan has gone past its first index
      obtain ⟨rfl, _⟩ := hwatched.scans k n hcontrol
      have hratio := dep.ratio_pos
      have hpassed := hwatched.passed n hcontrol (by omega)
      exact hwatched.last ⟨n, hcontrol⟩ hpassed
    next => exact hsignals.elim
  next => exact hsignals.elim

/-- Worker `k` has an entry to execute. -/
theorem pending_of_executes (hwatched : sys.Watched dep)
    (hexecutes : (sys.workers k).Executes) : (sys.ring k).pending ≠ [] :=
  (hwatched.idle k).pending_ne_nil (hwatched.good k) hexecutes.2.2

theorem afterRest (hwatched : sys.Watched dep)
    (hsettled : next.Settled dep)
    (hpending : ∀ k, (next.ring k).pending = (sys.ring k).pending)
    (hscan : ∀ k n, (next.workers k).control = .scanning n ↔
      (sys.workers k).control = .scanning n)
    (hcounter : ∀ k n, (sys.workers k).control = .scanning n →
      (next.ring k).submitted = (sys.ring k).submitted)
    (hexecuted : next.executed = sys.executed)
    (hcompletions : next.completions = sys.completions) :
    next.Watched dep := by
  have hall : next.AllExecuted dep ↔ sys.AllExecuted dep := by
    unfold AllExecuted
    simp only [hpending]
  have hscanning : next.Scanning dep ↔ sys.Scanning dep := by
    unfold Scanning
    simp only [hscan]
  refine ⟨hsettled, ?_, ?_, ?_⟩
  · intro n hcontrol hne
    have hbefore := (hscan _ n).mp hcontrol
    rw [hcounter _ n hbefore]
    exact hwatched.passed n hbefore hne
  · intro hscans hzero
    obtain ⟨n, hbefore⟩ := hscanning.mp hscans
    rw [hcounter _ n hbefore] at hzero
    exact hall.mpr (hwatched.last ⟨n, hbefore⟩ hzero)
  · unfold Notified
    rw [hexecuted, hcompletions, hall, hscanning]
    exact hwatched.notified

theorem afterAdvance (hwatched : sys.Watched dep)
    (hsettled : next.Settled dep)
    {idx : ℤ} (hadvanced : sys.advancedRing .user = some idx)
    (hleader : sys.LeaderLast dep .user)
    (hpending : ∃ submission,
      (next.ring idx).issued = (sys.ring idx).issued ++ [submission] ∧
        (next.ring idx).executed = (sys.ring idx).executed)
    (hothers : ∀ k, k ≠ idx →
      (next.ring k).pending = (sys.ring k).pending)
    (hcontrol : ∀ k, (next.workers k).control = (sys.workers k).control)
    (hcounter : ∀ k, (next.ring k).submitted = (sys.ring k).submitted)
    (hexecuted : next.executed = sys.executed)
    (hcompletions : next.completions = sys.completions) :
    next.Watched dep := by
  have hscanning : next.Scanning dep ↔ sys.Scanning dep := by
    unfold Scanning
    rw [hcontrol]
  refine ⟨hsettled, ?_, ?_, ?_⟩
  · intro n hscans hne
    rw [hcontrol] at hscans
    rw [hcounter]
    exact hwatched.passed n hscans hne
  · intro hscans hzero
    -- nothing is queued while the scan looks at a finished batch
    rw [hcounter] at hzero
    exact absurd (hscanning.mp hscans)
      (hleader (by rw [hadvanced]; rfl) hzero)
  · intro hsome hall hnot
    rw [hexecuted] at hsome
    rw [hexecuted, hcompletions]
    refine hwatched.notified hsome ?_ (fun h => hnot (hscanning.mpr h))
    intro k hset
    by_cases hk : k = idx
    · subst idx
      obtain ⟨submission, hissued, hsame⟩ := hpending
      have hle := (hwatched.good k).executed_le
      have hnil := Ring.pending_eq_nil_iff.mp (hall k hset)
      rw [hissued, hsame, List.length_append, List.length_singleton]
        at hnil
      omega
    · rw [← hothers k hk]
      exact hall k hset

/-- After the execution of one entry by worker `k`. -/
theorem allExecuted_execute_iff (hwatched : sys.Watched dep)
    (hset : dep.InSet k) (hexecutes : (sys.workers k).Executes)
    (hring : next.ring k = (sys.ring k).execute dep.toTableConfig)
    (hothers : ∀ n, n ≠ k → next.workers n = sys.workers n) :
    next.AllExecuted dep ↔ sys.OnlyPending dep k := by
  have hsame : ∀ n, n ≠ k →
      (next.ring n).pending = (sys.ring n).pending := by
    intro n hne
    unfold ring
    rw [hothers n hne]
  have hsome : (sys.ring k).pending.length ≠ 0 :=
    fun hzero => hwatched.pending_of_executes hexecutes
      (List.length_eq_zero_iff.mp hzero)
  have hown : (next.ring k).pending = [] ↔
      (sys.ring k).pending.length = 1 := by
    rw [← List.length_eq_zero_iff, hring, Ring.length_pending_execute]
    omega
  constructor
  · intro hall
    refine ⟨hown.mp (hall k hset), ?_⟩
    intro n hmem hne
    rw [← hsame n hne]
    exact hall n hmem
  · rintro ⟨hone, hnone⟩ n hmem
    by_cases hn : n = k
    · subst n
      exact hown.mpr hone
    · rw [hsame n hn]
      exact hnone n hmem hn

/-- The first worker goes on to its scan. -/
theorem afterLeaderExecute (hwatched : sys.Watched dep)
    (hsettled : next.Settled dep)
    (hexecutes : (sys.workers dep.firstRing).Executes)
    (hlast : toShort ((sys.ring dep.firstRing).submitted - 1) = 0 →
      sys.OnlyPending dep dep.firstRing)
    (hring : next.ring dep.firstRing =
      (sys.ring dep.firstRing).execute dep.toTableConfig)
    (hothers : ∀ n, n ≠ dep.firstRing →
      next.workers n = sys.workers n)
    (hcontrol : (next.workers dep.firstRing).control =
      .scanning dep.firstRing) :
    next.Watched dep := by
  refine ⟨hsettled, ?_, ?_, ?_⟩
  · intro n hscans hne
    rw [hcontrol] at hscans
    cases hscans
    exact absurd rfl hne
  · intro _ hzero
    rw [hring] at hzero
    exact (hwatched.allExecuted_execute_iff dep.inSet_firstRing hexecutes
      hring hothers).mpr (hlast hzero)
  · intro _ _ hnot
    exact absurd ⟨_, hcontrol⟩ hnot

/-- Another worker of the set executes an entry that is not the last one. -/
theorem afterOtherExecute (hwatched : sys.Watched dep)
    (hsettled : next.Settled dep)
    (hset : dep.InSet k) (hne : k ≠ dep.firstRing)
    (hexecutes : (sys.workers k).Executes) (hmore : ¬ sys.OnlyPending dep k)
    (hring : next.ring k = (sys.ring k).execute dep.toTableConfig)
    (hothers : ∀ n, n ≠ k → next.workers n = sys.workers n) :
    next.Watched dep := by
  have hfirst := hothers dep.firstRing hne.symm
  have hcounter : (next.ring dep.firstRing).submitted =
      (sys.ring dep.firstRing).submitted := by
    unfold ring
    rw [hfirst]
  refine ⟨hsettled, ?_, ?_, ?_⟩
  · intro n hscans hpast
    rw [hfirst] at hscans
    rw [hcounter]
    exact hwatched.passed n hscans hpast
  · intro hscans hzero
    -- the entry just executed was pending during the scan
    unfold Scanning at hscans
    rw [hfirst] at hscans
    rw [hcounter] at hzero
    exact absurd (hwatched.last hscans hzero k hset)
      (hwatched.pending_of_executes hexecutes)
  · intro _ hall _
    exact absurd ((hwatched.allExecuted_execute_iff hset hexecutes hring
      hothers).mp hall) hmore

/-- A scan step changes the control point of the first worker, and gives the
signal at the end of the scan. -/
theorem afterControl (hwatched : sys.Watched dep)
    (hsettled : next.Settled dep)
    {control : WorkerControl}
    (hworkers : next.workers =
      (sys.setControl dep.firstRing control).workers)
    (hscanned : sys.Scanning dep)
    (hpassed : ∀ n, control = .scanning n → n ≠ dep.firstRing →
      (sys.ring dep.firstRing).submitted = 0)
    (hnotified : sys.AllExecuted dep → (∀ n, control ≠ .scanning n) →
      next.executed.length ∈ next.completions) :
    next.Watched dep := by
  have hrings : ∀ n, next.ring n = sys.ring n := by
    intro n
    unfold ring
    rw [hworkers]
    exact sys.ring_setControl dep.firstRing n control
  have hown : (next.workers dep.firstRing).control = control := by
    rw [hworkers, setControl, setWorker_self]
  have hall : next.AllExecuted dep ↔ sys.AllExecuted dep := by
    unfold AllExecuted
    simp only [hrings]
  refine ⟨hsettled, ?_, ?_, ?_⟩
  · intro n hscans hne
    rw [hrings]
    exact hpassed n (hown.symm.trans hscans) hne
  · intro _ hzero
    rw [hrings] at hzero
    exact hall.mpr (hwatched.last hscanned hzero)
  · intro _ hdone hnot
    refine hnotified (hall.mp hdone) ?_
    intro n hscans
    exact hnot ⟨n, hown.trans hscans⟩

theorem afterScan (hwatched : sys.Watched dep) {n : ℤ}
    (hsettled : (sys.scanStep dep k n).Settled dep)
    (hcontrol : (sys.workers k).control = .scanning n) :
    (sys.scanStep dep k n).Watched dep := by
  obtain ⟨rfl, hle⟩ := hwatched.scans k n hcontrol
  have hscanned : sys.Scanning dep := ⟨n, hcontrol⟩
  unfold scanStep at hsettled ⊢
  split at hsettled
  next hlt =>
    rw [if_pos hlt]
    split at hsettled
    next hzero =>
      rw [if_pos hzero]
      refine hwatched.afterControl hsettled rfl hscanned ?_ ?_
      · intro m hm _
        by_cases hn : n = dep.firstRing
        · rw [← hn]
          exact hzero
        · exact hwatched.passed n hcontrol hn
      · intro _ hnot
        exact absurd rfl (hnot (n + 1))
    next hnonzero =>
      rw [if_neg hnonzero]
      refine hwatched.afterControl hsettled rfl hscanned nofun ?_
      intro hall _
      -- a counter that is not zero belongs to a pending entry
      have hpending := (hwatched.idle n).pending_ne_nil (hwatched.good n)
        hnonzero
      exact absurd (hall n ⟨hle, hlt⟩) hpending
  next hge =>
    rw [if_neg hge]
    refine hwatched.afterControl hsettled rfl hscanned nofun ?_
    intro _ _
    exact List.mem_append_right _ (List.mem_singleton_self _)

theorem afterStep (hwatched : sys.Watched dep)
    {action : SystemAction κ} (hsafe : sys.NoOverrun dep action)
    (hleader : sys.LeaderLast dep action)
    (hstep : sys.step dep access action = some next) :
    next.Watched dep := by
  have hsettled := hwatched.toSettled.afterStep hsafe hstep
  cases step_notice hstep with
  | rest hpending hscan hcounter hexecuted hcompletions =>
      exact hwatched.afterRest hsettled hpending hscan hcounter
        hexecuted hcompletions
  | advance idx hadvanced hpending hothers hcontrol hcounter hexecuted
      hcompletions =>
      exact hwatched.afterAdvance hsettled hadvanced hleader hpending
        hothers hcontrol hcounter hexecuted hcompletions
  | execute k hset hexecutes hring hothers hcontrol =>
      obtain ⟨hfirst, hother⟩ := hleader hexecutes
      by_cases hk : k = dep.firstRing
      · subst k
        have hzero : dep.firstRing.tmod dep.ratio = 0 :=
          Int.mul_tmod_left _ _
        rw [if_pos hzero] at hcontrol
        exact hwatched.afterLeaderExecute hsettled hexecutes
          (hfirst rfl) hring hothers hcontrol
      · exact hwatched.afterOtherExecute hsettled hset hk hexecutes
          (hother hk) hring hothers
  | scan k n hset hcontrol =>
      exact hwatched.afterScan hsettled hcontrol

end Watched

/-- In every run in which the first worker of the set finishes last, no signal
comes early and none is missing. -/
theorem leader_last_signals_in_time
    (hsafe : Transition.StepsMeet (step dep access) (NoOverrun dep)
      (dep.initWorker pages memory) actions)
    (hleader : Transition.StepsMeet (step dep access) (LeaderLast dep)
      (dep.initWorker pages memory) actions) :
    Transition.StatesMeet (step dep access) (Punctual dep)
      (dep.initWorker pages memory) actions := by
  refine Transition.statesMeet_of_invariant
    (fun _ hwatched => Watched.punctual hwatched) ?_
    (initWorker_watched dep pages memory) (hsafe.and hleader)
  intro state action next hwatched hcondition hstep
  exact hwatched.afterStep hcondition.1 hcondition.2 hstep

end System

/-! ## Two rings -/

section TwoRings

open SystemAction

abbrev twoRings : Deployment LightyCall LightyMemory :=
  twoWorkerSet.lighty .x86 4096

/-- One entry on each ring; the first worker executes its own after the
other worker. -/
def leaderLast : List (SystemAction LightyCall) :=
  segmentStart twoWorkerSet ++
    wholeCall (.shutdown 4 1) ++ wholeCall (.shutdown 5 1) ++
    workerSteps 1 false 3 ++ workerSteps 0 false 6

theorem leaderLast_signals_in_time :
    ∃ final,
      Transition.run (System.step twoRings .atomic)
        (twoRings.initWorker (fun _ => blankMemory) (fun _ => 0))
        leaderLast = some final ∧
      final.executed.length = 2 ∧ final.completions = [2] ∧
      Transition.StatesMeet (System.step twoRings .atomic)
        (System.Punctual twoRings)
        (twoRings.initWorker (fun _ => blankMemory) (fun _ => 0))
        leaderLast :=
  ⟨_, rfl, rfl, rfl,
    System.leader_last_signals_in_time (by decide) (by decide)⟩

/-- The first worker reaches the end of its scan while the entry of the other
ring waits for its snapshot. -/
def leaderFirst : List (SystemAction LightyCall) :=
  segmentStart twoWorkerSet ++
    wholeCall (.shutdown 4 1) ++ wholeCall (.shutdown 5 1) ++
    workerSteps 0 false 5

/-- The only entry is on the other ring. -/
def noneForLeader : List (SystemAction LightyCall) :=
  segmentStart twoWorkerSet ++
    wholeCall (.shutdown 5 1) ++ workerSteps 1 false 3

/-- The signal comes before the entry of the other ring is executed, and it
does not come at all after the only entry. -/
theorem leaderFirst_signals_early :
    ∃ early lost,
      (Transition.run (System.step twoRings .atomic)
          (twoRings.initWorker (fun _ => blankMemory) (fun _ => 0))
          leaderFirst = some early ∧
        Transition.StepsMeet (System.step twoRings .atomic)
          (System.NoOverrun twoRings)
          (twoRings.initWorker (fun _ => blankMemory) (fun _ => 0))
          leaderFirst ∧
        early.Signals twoRings (.worker 0 false 0) ∧
        (early.ring 1).pending =
          [⟨0, 0, shutdownEntry .x86 5 1⟩] ∧
        ¬ early.Punctual twoRings) ∧
      Transition.run (System.step twoRings .atomic)
          (twoRings.initWorker (fun _ => blankMemory) (fun _ => 0))
          noneForLeader = some lost ∧
        Transition.StepsMeet (System.step twoRings .atomic)
          (System.NoOverrun twoRings)
          (twoRings.initWorker (fun _ => blankMemory) (fun _ => 0))
          noneForLeader ∧
        lost.executed.length = 1 ∧ lost.AllExecuted twoRings ∧
        lost.completions = [] ∧
        ¬ lost.Punctual twoRings := by
  refine ⟨_, _, ⟨rfl, by decide, ?_, rfl, ?_⟩, rfl, by decide, rfl,
    by decide, rfl, ?_⟩
  · change (2 : ℤ) ≤ 2
    exact le_rfl
  · rintro ⟨hdone, _⟩
    have hpending :=
      hdone (.worker 0 false 0) (le_refl (2 : ℤ)) 1 (by decide)
    cases hpending
  · rintro ⟨_, hnotified⟩
    have hmem := hnotified (by decide) (by decide) (by decide)
    cases hmem

end TwoRings

end Saio
