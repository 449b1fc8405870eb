import Saio.SystemDelivery
import Saio.AdvertisedSleep
import Mathlib.Tactic

/-!
# `batch_flush` as a barrier

`sys_esca_wait` calls `wait_event_interruptible` with the constant condition
`1`, so it never waits.  Whatever calls were queued, there is a run in which
the workers have not moved at all when `batch_flush` returns: the user thread
alone completes `batch_start`, each wrapped call and the flush, because the
published heads stay at the start of their rings and no spin holds it back.

The library code outside wrapped calls returns by its own steps.  Its work
rank counts the control points left in the loop of `batch_start`.
-/

namespace Saio

open FifoBank Transition

variable {κ μ : Type} {dep : Deployment κ μ} {access : FlagAccess}
  {sys next : System κ μ}

namespace Deployment

/-- The rings `batch_start` has still to go through after ring `j`. -/
def ringsAfter (dep : Deployment κ μ) (j : ℤ) : ℕ :=
  (dep.firstRing + dep.ratio - j).toNat

/-- A bound on the steps left in the library call in progress. -/
def userWork (dep : Deployment κ μ) : UserPc κ → ℕ
  | .startTest j => 8 * dep.ringsAfter j + 7
  | .startSet j => 8 * dep.ringsAfter j + 6
  | .startSetLoaded j _ => 8 * dep.ringsAfter j + 5
  | .wakeupTest j => 8 * dep.ringsAfter j + 4
  | .wakeup j => 8 * dep.ringsAfter j + 3
  | .startClear j => 8 * dep.ringsAfter j + 2
  | .startClearLoaded j _ => 8 * dep.ringsAfter j + 1
  | .flushWait => 1
  | _ => 0

/-- Moving on to the next ring leaves less work than any control point of the
ring just left. -/
theorem userWork_startAt_succ_lt (dep : Deployment κ μ) (j : ℤ)
    {left : ℕ} (hleft : 0 < left) :
    dep.userWork (dep.startAt (j + 1)) <
      8 * dep.ringsAfter j + left := by
  unfold startAt
  split
  next hlt =>
    change 8 * dep.ringsAfter (j + 1) + 7 < 8 * dep.ringsAfter j + left
    unfold ringsAfter
    omega
  next =>
    change 0 < _
    omega

end Deployment

namespace System

/-- The next step of a library call outside a wrapped call is enabled and
lowers the work that is left. -/
theorem userStep_progress (dep : Deployment κ μ) (access : FlagAccess)
    (houtside : sys.user.Outside) (hbusy : sys.user ≠ .ready) :
    ∃ next, sys.userStep dep access = some next ∧
      next.user.Outside ∧ next.inSegment = sys.inSegment ∧
      dep.userWork next.user < dep.userWork sys.user := by
  cases hpc : sys.user with
  | ready => exact absurd hpc hbusy
  | startTest j =>
      simp only [userStep, hpc]
      split
      · exact ⟨_, rfl, trivial, rfl, Nat.lt_succ_self _⟩
      · exact ⟨_, rfl, dep.startAt_outside _, rfl,
          dep.userWork_startAt_succ_lt j (by omega)⟩
  | startSet j =>
      simp only [userStep, hpc]
      cases access with
      | atomic =>
          refine ⟨_, rfl, trivial, rfl, ?_⟩
          change 8 * dep.ringsAfter j + 4 < 8 * dep.ringsAfter j + 6
          omega
      | split => exact ⟨_, rfl, trivial, rfl, Nat.lt_succ_self _⟩
  | startSetLoaded j flags =>
      simp only [userStep, hpc]
      exact ⟨_, rfl, trivial, rfl, Nat.lt_succ_self _⟩
  | wakeupTest j =>
      simp only [userStep, hpc]
      split
      · exact ⟨_, rfl, trivial, rfl, Nat.lt_succ_self _⟩
      · refine ⟨_, rfl, trivial, rfl, ?_⟩
        change 8 * dep.ringsAfter j + 2 < 8 * dep.ringsAfter j + 4
        omega
  | wakeup j =>
      simp only [userStep, hpc]
      exact ⟨_, rfl, trivial, rfl, Nat.lt_succ_self _⟩
  | startClear j =>
      simp only [userStep, hpc]
      cases access with
      | atomic =>
          exact ⟨_, rfl, dep.startAt_outside _, rfl,
            dep.userWork_startAt_succ_lt j (by omega)⟩
      | split => exact ⟨_, rfl, trivial, rfl, Nat.lt_succ_self _⟩
  | startClearLoaded j flags =>
      simp only [userStep, hpc]
      exact ⟨_, rfl, dep.startAt_outside _, rfl,
        dep.userWork_startAt_succ_lt j Nat.one_pos⟩
  | flushWait =>
      simp only [userStep, hpc, waitEvent, sysEscaWaitCondition, if_true]
      exact ⟨_, rfl, trivial, rfl, Nat.zero_lt_one⟩
  | advancing idx source entry =>
      rw [hpc] at houtside
      exact houtside.elim
  | marking idx =>
      rw [hpc] at houtside
      exact houtside.elim

/-- The workers have not moved: nothing is executed and every published head
is at the first entry of a table. -/
structure Untouched (dep : Deployment κ μ) (sys : System κ μ) :
    Prop where
  recorded : sys.Recorded dep
  executed_nil : sys.executed = []
  heads : ∀ k, (sys.ring k).table.headEntry = 0

theorem initWorker_untouched (dep : Deployment κ μ)
    (pages : ℤ → ℕ → ℕ → TableEntry) (memory : μ) :
    (dep.initWorker pages memory).Untouched dep :=
  ⟨initWorker_recorded dep pages memory, rfl, fun _ => rfl⟩

theorem Untouched.afterQuiet (huntouched : sys.Untouched dep)
    (hrecorded : next.Recorded dep)
    (hring : ∀ k, next.ring k = sys.ring k)
    (hexecuted : next.executed = sys.executed) :
    next.Untouched dep where
  recorded := hrecorded
  executed_nil := by
    rw [hexecuted]
    exact huntouched.executed_nil
  heads := by
    intro k
    rw [hring k]
    exact huntouched.heads k

theorem Untouched.afterMoves (huntouched : sys.Untouched dep)
    {k : ℤ} {ringAction : RingAction}
    (hrecorded : next.Recorded dep)
    (hmoves : RingMoves dep sys next k ringAction)
    (hhead : (next.ring k).table.head = (sys.ring k).table.head)
    (hexecuted : next.executed = sys.executed) :
    next.Untouched dep where
  recorded := hrecorded
  executed_nil := by
    rw [hexecuted]
    exact huntouched.executed_nil
  heads := by
    intro n
    by_cases hn : n = k
    · subst n
      have hentry := congrArg Prod.snd hhead
      exact hentry.trans (huntouched.heads k)
    · rw [hmoves.others n hn]
      exact huntouched.heads n

/-- The user thread alone leaves the heads where they are. -/
theorem Untouched.afterUser (huntouched : sys.Untouched dep)
    (hstep : sys.step dep access .user = some next) :
    next.Untouched dep := by
  have heffect := step_effect hstep
  have hrecorded := huntouched.recorded.afterEffect heffect
  cases heffect with
  | quiet hring _ hexecuted _ =>
      exact huntouched.afterQuiet hrecorded hring hexecuted
  | advance idx source entry _ hmoves _ hexecuted _ =>
      obtain ⟨i, j, call, _, _, hring⟩ := Ring.step_advance hmoves.moved
      refine huntouched.afterMoves hrecorded hmoves ?_ hexecuted
      rw [hring]
      exact EscaTable.updateIndex_head _ _
  | mark idx _ hmoves _ hexecuted _ =>
      obtain ⟨i, j, _, hring⟩ := Ring.step_storeBusy hmoves.moved
      refine huntouched.afterMoves hrecorded hmoves ?_ hexecuted
      rw [hring]
      exact EscaTable.setStatus_head _ _ _

theorem issued_of_outside (houtside : sys.user.Outside)
    (hstep : sys.step dep access .user = some next) :
    next.issued = sys.issued := by
  cases step_effect hstep with
  | quiet _ hissued _ _ => exact hissued
  | advance idx source entry hadvancing _ _ _ _ =>
      rw [hadvancing] at houtside
      exact houtside.elim
  | mark idx hmarking _ _ _ _ =>
      rw [hmarking] at houtside
      exact houtside.elim

/-- Library calls other than wrapped calls return by themselves. -/
theorem Untouched.returns (huntouched : sys.Untouched dep)
    (access : FlagAccess) (houtside : sys.user.Outside) :
    ∃ next, Reaches (step dep access) sys next ∧
      next.Untouched dep ∧ next.user = .ready ∧
      next.inSegment = sys.inSegment ∧ next.issued = sys.issued := by
  let invariant : System κ μ → Prop := fun state =>
    state.user.Outside ∧ state.Untouched dep ∧
      state.inSegment = sys.inSegment ∧ state.issued = sys.issued
  let rank : System κ μ → ℕ := fun state => dep.userWork state.user
  have hprogress : ∀ state, invariant state → state.user ≠ .ready →
      ∃ action next, state.step dep access action = some next ∧
        invariant next ∧ rank next < rank state := by
    rintro state ⟨hstate, hsame, hsegment, hissued⟩ hbusy
    obtain ⟨next, hstep, hnext, hkept, hlower⟩ :=
      userStep_progress dep access hstate hbusy
    have hcontinued : state.step dep access .user = some next := hstep
    refine ⟨.user, next, hcontinued, ⟨hnext, ?_, ?_, ?_⟩, hlower⟩
    · exact hsame.afterUser hcontinued
    · rw [hkept]
      exact hsegment
    · rw [← hissued]
      exact issued_of_outside hstate hcontinued
  have hstart : invariant sys := ⟨houtside, huntouched, rfl, rfl⟩
  obtain ⟨next, hreaches, ⟨_, hnext, hsegment, hissued⟩, hready⟩ :=
    reaches_of_rank hprogress hstart
  exact ⟨next, hreaches, hnext, hready, hsegment, hissued⟩

/-! ## A wrapped call on untouched rings -/

theorem Untouched.call_enabled (huntouched : sys.Untouched dep)
    (access : FlagAccess) (hready : sys.user = .ready)
    (hsegment : sys.inSegment = true) (source : κ) :
    ∃ next entry, sys.step dep access (.call source) = some next ∧
      next.Untouched dep ∧
      next.user = .advancing (dep.route source) source entry ∧
      next.inSegment = true ∧ next.issued = sys.issued := by
  have hidle := huntouched.recorded.producer (dep.route source)
  rw [hready] at hidle
  change (sys.ring (dep.route source)).producer = .idle at hidle
  have henabled :
      ∃ next entry, sys.step dep access (.call source) = some next ∧
        next.user = .advancing (dep.route source) source entry ∧
        next.inSegment = true := by
    simp only [step, hready, call, hsegment, if_true, onRing, Ring.step,
      hidle]
    exact ⟨_, _, rfl, rfl, hsegment⟩
  obtain ⟨next, entry, hstep, huser, hinside⟩ := henabled
  have heffect := step_effect hstep
  have hrecorded := huntouched.recorded.afterEffect heffect
  refine ⟨next, entry, hstep, ?_, huser, hinside, ?_⟩
  · cases heffect with
    | quiet _ _ _ hsame =>
        rw [hready, huser] at hsame
        rcases hsame with hsame | ⟨_, hsame⟩
        · contradiction
        · exact hsame.elim
    | write _ written _ _ hmoves _ hexecuted _ =>
        obtain ⟨_, hring⟩ := Ring.step_write hmoves.moved
        refine huntouched.afterMoves hrecorded hmoves ?_ hexecuted
        rw [hring]
        exact EscaTable.setEntry_head _ _ _
  · cases heffect with
    | quiet _ hissued _ _ => exact hissued
    | write _ _ _ _ _ hissued _ _ => exact hissued

theorem Untouched.advance_enabled (huntouched : sys.Untouched dep)
    (access : FlagAccess) {idx : ℤ} {source : κ} {entry : SysCall}
    (hpc : sys.user = .advancing idx source entry) :
    ∃ next, sys.step dep access .user = some next ∧
      next.user = .marking idx ∧ next.inSegment = sys.inSegment ∧
      next.issued = sys.issued ++ [⟨source, idx, entry⟩] := by
  have hpoint := huntouched.recorded.producer idx
  rw [hpc] at hpoint
  obtain ⟨i, j, hwritten⟩ := hpoint.2.1 rfl
  have hspin : ¬ (sys.ring idx).table.SpinsFull := by
    rintro ⟨hentry, _⟩
    rw [huntouched.heads idx] at hentry
    omega
  simp only [step, userStep, hpc, onRing, Ring.step, hwritten, hspin,
    if_false]
  exact ⟨_, rfl, rfl, rfl, rfl⟩

theorem Untouched.mark_enabled (huntouched : sys.Untouched dep)
    (access : FlagAccess) {idx : ℤ} (hpc : sys.user = .marking idx) :
    ∃ next, sys.step dep access .user = some next ∧
      next.user = .ready ∧ next.inSegment = sys.inSegment ∧
      next.issued = sys.issued := by
  have hpoint := huntouched.recorded.producer idx
  rw [hpc] at hpoint
  obtain ⟨i, j, hadvanced⟩ := hpoint.1 rfl
  simp only [step, userStep, hpc, onRing, Ring.step, hadvanced]
  exact ⟨_, rfl, rfl, rfl, rfl⟩

theorem Untouched.call_returns (huntouched : sys.Untouched dep)
    (access : FlagAccess) (hready : sys.user = .ready)
    (hsegment : sys.inSegment = true) (source : κ) :
    ∃ next, Reaches (step dep access) sys next ∧
      next.Untouched dep ∧ next.user = .ready ∧
      next.inSegment = true ∧
      next.issued.map Issued.source =
        sys.issued.map Issued.source ++ [source] := by
  obtain ⟨queued, entry, hcall, hqueued, hadvancing, hopen, hissued⟩ :=
    huntouched.call_enabled access hready hsegment source
  obtain ⟨advanced, hadvance, hmarking, hkept, happended⟩ :=
    hqueued.advance_enabled access hadvancing
  have hadvanced := hqueued.afterUser hadvance
  obtain ⟨next, hmark, hdone, hstill, hsame⟩ :=
    hadvanced.mark_enabled access hmarking
  refine ⟨next, ?_, hadvanced.afterUser hmark, hdone, ?_, ?_⟩
  · exact (Reaches.of_step hcall).trans
      ((Reaches.of_step hadvance).trans (Reaches.of_step hmark))
  · rw [hstill, hkept]
    exact hopen
  · rw [hsame, happended, hissued]
    simp

theorem Untouched.calls_return (huntouched : sys.Untouched dep)
    (access : FlagAccess) (hready : sys.user = .ready)
    (hsegment : sys.inSegment = true) (calls : List κ) :
    ∃ next, Reaches (step dep access) sys next ∧
      next.Untouched dep ∧ next.user = .ready ∧
      next.inSegment = true ∧
      next.issued.map Issued.source =
        sys.issued.map Issued.source ++ calls := by
  induction calls generalizing sys with
  | nil =>
      exact ⟨sys, Reaches.refl sys, huntouched, hready, hsegment,
        (List.append_nil _).symm⟩
  | cons source rest ih =>
      obtain ⟨middle, hfirst, hmiddle, hdone, hopen, hissued⟩ :=
        huntouched.call_returns access hready hsegment source
      obtain ⟨next, hsecond, hnext, hready, hsegment, hall⟩ :=
        ih hmiddle hdone hopen
      refine ⟨next, hfirst.trans hsecond, hnext, hready, hsegment, ?_⟩
      rw [hall, hissued, List.append_assoc]
      rfl

/-! ## The flush -/

/-- The user thread is between calls and outside a segment. -/
def Flushed (sys : System κ μ) : Prop :=
  sys.user = .ready ∧ sys.inSegment = false

theorem Untouched.flush_returns (huntouched : sys.Untouched dep)
    (access : FlagAccess) (hready : sys.user = .ready) :
    ∃ next, Reaches (step dep access) sys next ∧
      next.Untouched dep ∧ next.Flushed ∧ next.issued = sys.issued := by
  have hflush :
      sys.step dep access .batchFlush = some sys.batchFlush := by
    simp only [step, hready]
  have houtside : sys.batchFlush.user.Outside := by
    unfold batchFlush
    split
    · rw [hready]
      trivial
    · trivial
  have hclosed : sys.batchFlush.inSegment = false := by
    unfold batchFlush
    split <;> rfl
  have heffect := step_effect hflush
  have hrecorded := huntouched.recorded.afterEffect heffect
  obtain ⟨hstart, hissued⟩ : sys.batchFlush.Untouched dep ∧
      sys.batchFlush.issued = sys.issued := by
    cases heffect with
    | quiet hring hissued hexecuted _ =>
        exact ⟨huntouched.afterQuiet hrecorded hring hexecuted, hissued⟩
  obtain ⟨next, hreaches, hnext, hdone, hsame, hkept⟩ :=
    hstart.returns access houtside
  refine ⟨next, (Reaches.of_step hflush).trans hreaches, hnext,
    ⟨hdone, ?_⟩, ?_⟩
  · rw [hsame]
    exact hclosed
  · rw [hkept]
    exact hissued

/-- A whole segment in which only the user thread moves. -/
theorem segment_without_workers (dep : Deployment κ μ)
    (access : FlagAccess) (pages : ℤ → ℕ → ℕ → TableEntry) (memory : μ)
    (calls : List κ) :
    ∃ final,
      Reaches (step dep access) (dep.initWorker pages memory) final ∧
      final.Untouched dep ∧ final.Flushed ∧
      final.issued.map Issued.source = calls := by
  let sys := dep.initWorker pages memory
  have hsys : sys.Untouched dep := initWorker_untouched dep pages memory
  have hopen : sys.step dep access .batchStart =
      some (sys.batchStart dep) := rfl
  have hopened : (sys.batchStart dep).Untouched dep :=
    ⟨hsys.recorded.afterEffect (step_effect hopen), rfl, fun _ => rfl⟩
  obtain ⟨started, hstart, hstarted, hready, hsegment, hnone⟩ :=
    hopened.returns access (dep.startAt_outside _)
  obtain ⟨queued, hcalls, hqueued, hidle, _, hissued⟩ :=
    hstarted.calls_return access hready hsegment calls
  obtain ⟨final, hflush, hfinal, hflushed, hkept⟩ :=
    hqueued.flush_returns access hidle
  refine ⟨final, ?_, hfinal, hflushed, ?_⟩
  · exact (Reaches.of_step hopen).trans
      (hstart.trans (hcalls.trans hflush))
  · rw [hkept, hissued, hnone]
    rfl

/-- An issued entry on untouched rings is pending. -/
theorem Untouched.pending_ne_nil (huntouched : sys.Untouched dep)
    {record : Issued κ} (hrecord : record ∈ sys.issued) :
    (sys.ring record.ring).pending ≠ [] := by
  have hexecuted := huntouched.recorded.executed_eq record.ring
  have htaken : sys.taken = [] := by
    rw [taken, huntouched.executed_nil]
    rfl
  rw [htaken, lane_nil] at hexecuted
  have hentry : record.entry ∈ lane record.ring sys.sent := by
    rw [mem_lane]
    exact List.mem_map.mpr ⟨record, hrecord, rfl⟩
  rw [← huntouched.recorded.issued_eq] at hentry
  unfold Ring.pending
  rw [hexecuted]
  intro hnil
  rw [List.length_nil, List.drop_zero] at hnil
  rw [hnil] at hentry
  exact absurd hentry List.not_mem_nil

theorem Recorded.pending_of_issued_nil (hrecorded : sys.Recorded dep)
    (hissued : sys.issued = []) (k : ℤ) :
    (sys.ring k).pending = [] := by
  have hlane := hrecorded.issued_eq k
  rw [sent, hissued, List.map_nil, lane_nil, List.map_eq_nil_iff]
    at hlane
  rw [Ring.pending, hlane, List.drop_nil]

/-- For a given sequence of queued calls, nothing is pending after the flush
in every interleaving exactly when the sequence is empty. -/
theorem flush_drains_iff (dep : Deployment κ μ) (access : FlagAccess)
    (pages : ℤ → ℕ → ℕ → TableEntry) (memory : μ) (calls : List κ) :
    (∀ actions final,
        run (step dep access) (dep.initWorker pages memory) actions =
          some final →
        final.issued.map Issued.source = calls → final.Flushed →
          ∀ k, (final.ring k).pending = []) ↔
      calls = [] := by
  constructor
  · intro hbarrier
    obtain ⟨final, ⟨actions, hrun⟩, huntouched, hflushed, hissued⟩ :=
      segment_without_workers dep access pages memory calls
    cases hrecords : final.issued with
    | nil =>
        rw [hrecords] at hissued
        exact hissued.symm
    | cons record rest =>
        have hrecord : record ∈ final.issued := by
          rw [hrecords]
          exact List.mem_cons_self
        exact absurd
          (hbarrier actions final hrun hissued hflushed record.ring)
          (huntouched.pending_ne_nil hrecord)
  · rintro rfl actions final hrun hissued _ k
    have hrecorded : final.Recorded dep :=
      run_invariant
        (fun _ _ _ hrecorded _ hstep =>
          Recorded.afterEffect hrecorded (step_effect hstep))
        (initWorker_recorded dep pages memory) hrun
        (stepsMeet_true _ _)
    exact hrecorded.pending_of_issued_nil
      (List.map_eq_nil_iff.mp hissued) k

/-- `batch_flush` of redis returns while the kernel has still to read the
caller's buffer at address 1000. -/
theorem flush_leaves_write_pending :
    ∃ final,
      run (step oneRedis .atomic)
        (oneRedis.initWorker (fun _ => blankMemory) ())
        (SystemAction.segmentStart oneWorkerSet ++
          SystemAction.wholeCall ⟨5, 1000, 3⟩ ++
          [.batchFlush, .user]) = some final ∧
      final.Flushed ∧
      (final.ring 0).pending =
        [⟨0, 0, writeEntry .x86 5 1000 3⟩] :=
  ⟨_, rfl, ⟨rfl, rfl⟩, rfl⟩


end System

end Saio
