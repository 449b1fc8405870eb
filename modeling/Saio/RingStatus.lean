import Saio.RingDelivery
import Mathlib.Tactic

/-!
# Status marks of a drained ring

The tail is published before the status mark, and the batch loop trusts the
tail.  An entry can therefore be executed while its wrapped call is still
before the `BENTRY_BUSY` store, and that store then marks a slot which has
nothing left to execute.

As long as no entry is executed in that window and the two arrays share their
entries, the marked slots are exactly the pending entries whose call has made
its last store, so that a drained ring between calls is marked empty
everywhere.
-/

namespace Saio

namespace Ring

variable {cfg : TableConfig} {ring next final : Ring}
  {memory : ℕ → ℕ → TableEntry} {actions : List RingAction}

/-- The worker executes only a slot that is marked busy at that moment. -/
def ExecutesBusy (ring : Ring) (action : RingAction) : Prop :=
  action = .execute → ring.cursorEntry.rstatus = .busy

/-- Between calls, with the cursor at the tail, every slot is empty. -/
def CleanWhenDrained (cfg : TableConfig) (ring : Ring) : Prop :=
  ring.producer = .idle →
    ring.cursor = ring.table.tail →
      ∀ i j, i < cfg.maxTableLen → j < cfg.maxTableEntry →
        (ring.table.entryAt (i, j)).rstatus = .empty

/-- The worker does not execute the slot whose wrapped call stands between
its tail advance and its status store. -/
def AwaitsStatus (ring : Ring) (action : RingAction) : Prop :=
  action = .execute → ring.producer ≠ .advanced ring.i ring.j

instance (ring : Ring) (action : RingAction) :
    Decidable (ring.ExecutesBusy action) :=
  inferInstanceAs (Decidable (_ → _))

instance (ring : Ring) (action : RingAction) :
    Decidable (ring.AwaitsStatus action) :=
  inferInstanceAs (Decidable (_ → _))

/-- A marked slot of the ring holds a pending entry whose wrapped call has
made its last store. -/
structure Marked (cfg : TableConfig) (ring : Ring) : Prop where
  good : ring.Good cfg
  busy : ∀ i j, i < cfg.maxTableLen → j < cfg.maxTableEntry →
    (ring.table.entryAt (i, j)).rstatus = .busy →
      ∃ k, ring.executed.length ≤ k ∧ k < ring.issued.length ∧
        (i, j) = cfg.slotAt k ∧ ring.producer ≠ .advanced i j
  window : ∀ i j, ring.producer = .advanced i j →
    ring.executed.length < ring.issued.length

theorem sysEscaRegister_marked
    (cfg : TableConfig) (memory : ℕ → ℕ → TableEntry) :
    (sysEscaRegister cfg memory).Marked cfg where
  good := sysEscaRegister_good cfg memory
  busy := by
    intro i j hi hj hbusy
    simp [sysEscaRegister, RingBase.register, EscaTable.entryAt, hi, hj]
      at hbusy
  window := by simp [sysEscaRegister]

namespace Marked

theorem afterWrite (hmarked : ring.Marked cfg)
    (hproducer : ring.producer = .idle) (call : SysCall) :
    (ring.write cfg call).Marked cfg where
  good := hmarked.good.afterWrite hproducer call
  busy := by
    intro i j hi hj hbusy
    have hold : (ring.table.entryAt (i, j)).rstatus = .busy :=
      (EscaTable.fillUser_rstatus cfg _ _ _ call).symm.trans hbusy
    obtain ⟨k, hcursor, htail, hslot, _⟩ :=
      hmarked.busy i j hi hj hold
    exact ⟨k, hcursor, htail, hslot, by simp [write]⟩
  window := by simp [write]

theorem afterAdvance (hmarked : ring.Marked cfg)
    {i j : ℕ} {call : SysCall}
    (hproducer : ring.producer = .written i j call)
    (hsafe : (ring.table.updateIndex cfg).tail ≠ ring.table.head) :
    (ring.advance cfg i j call).Marked cfg where
  good := hmarked.good.afterAdvance hproducer hsafe
  busy := by
    intro i' j' hi hj hbusy
    change
      ((ring.table.updateIndex cfg).entryAt (i', j')).rstatus = .busy
        at hbusy
    rw [EscaTable.updateIndex_entryAt] at hbusy
    obtain ⟨k, hcursor, htail, hslot, _⟩ :=
      hmarked.busy i' j' hi hj hbusy
    have hlength :
        (ring.advance cfg i j call).issued.length =
          ring.issued.length + 1 := by
      simp [advance]
    refine ⟨k, hcursor, by omega, hslot, ?_⟩
    intro hsame
    simp only [advance, ProducerPc.advanced.injEq] at hsame
    apply hmarked.good.pending_ne_tail hcursor htail
    rw [← hslot, ← hmarked.good.written_slot hproducer, hsame.1,
      hsame.2]
  window := by
    intro i' j' _
    have hle := hmarked.good.executed_le
    change ring.executed.length < (ring.issued ++ [_]).length
    rw [List.length_append, List.length_singleton]
    omega

theorem afterStoreBusy (hmarked : ring.Marked cfg)
    (hshares : cfg.SharesEntries) {i j : ℕ}
    (hproducer : ring.producer = .advanced i j) :
    (ring.storeBusy cfg i j).Marked cfg where
  good := hmarked.good.afterStoreBusy hproducer
  busy := by
    intro i' j' hi hj hbusy
    change
      ((ring.table.markUser cfg (i, j)).entryAt (i', j')).rstatus =
        .busy at hbusy
    obtain ⟨hpositive, hnewest⟩ := hmarked.good.advanced_slot hproducer
    have huser : cfg.userSlot (i, j) = (i, j) := by
      rw [hnewest, hshares.userSlot_slotAt]
    by_cases hslot : (i', j') = (i, j)
    · refine ⟨ring.issued.length - 1, ?_, ?_, ?_, by simp [storeBusy]⟩
      · have := hmarked.window i j hproducer
        change ring.executed.length ≤ _
        omega
      · change _ < ring.issued.length
        omega
      · rw [hslot]
        exact hnewest
    · rw [← huser] at hslot
      rw [EscaTable.markUser_rstatus_of_ne _ hslot] at hbusy
      obtain ⟨k, hcursor, htail, hk, _⟩ :=
        hmarked.busy i' j' hi hj hbusy
      exact ⟨k, hcursor, htail, hk, by simp [storeBusy]⟩
  window := by simp [storeBusy]

theorem afterWorkerPoint (hmarked : ring.Marked cfg)
    {moved : Ring} (hgood : moved.Good cfg)
    (hentries : ∀ slot,
      moved.table.entryAt slot = ring.table.entryAt slot)
    (hproducer : moved.producer = ring.producer)
    (hissued : moved.issued = ring.issued)
    (hexecuted : moved.executed = ring.executed) :
    moved.Marked cfg where
  good := hgood
  busy := by
    intro i j hi hj hbusy
    rw [hentries] at hbusy
    rw [hproducer, hissued, hexecuted]
    exact hmarked.busy i j hi hj hbusy
  window := by
    intro i j hpc
    rw [hproducer] at hpc
    rw [hissued, hexecuted]
    exact hmarked.window i j hpc

theorem cursor_in_ring (hgood : ring.Good cfg) :
    ring.i < cfg.maxTableLen ∧ ring.j < cfg.maxTableEntry := by
  have hcursor := hgood.cursor_eq
  constructor
  · have hi : ring.i = (cfg.slotAt ring.executed.length).1 :=
      congrArg Prod.fst hcursor
    rw [hi]
    exact CircularSlots.slotAt_fst_lt cfg.len_pos _
  · have hj : ring.j = (cfg.slotAt ring.executed.length).2 :=
      congrArg Prod.snd hcursor
    rw [hj]
    exact CircularSlots.slotAt_snd_lt cfg.entry_pos _

/-- In a marked ring the window and the missing mark are the same thing. -/
theorem executesBusy_iff (hmarked : ring.Marked cfg)
    (hshares : cfg.SharesEntries) {action : RingAction}
    (hstep : ring.step cfg action = some next) :
    ring.ExecutesBusy action ↔ ring.AwaitsStatus action := by
  cases action with
  | execute =>
      obtain ⟨hworker, hsubmitted, _⟩ := step_execute hstep
      obtain ⟨hi, hj⟩ := cursor_in_ring hmarked.good
      constructor
      · intro hbusy _ hwindow
        obtain ⟨_, _, _, _, hnot⟩ :=
          hmarked.busy ring.i ring.j hi hj (hbusy rfl)
        exact hnot hwindow
      · intro hawaits _
        obtain ⟨remaining, _, hbound⟩ :=
          hmarked.good.executed_lt_of_submitted hworker hsubmitted
        rcases (hmarked.good.contents hshares).status
            ring.executed.length le_rfl (by omega) with
          hbusy | ⟨hnewest, i, j, hpc⟩
        · rw [RingBase.cursorEntry, hmarked.good.cursor_eq]
          exact hbusy
        · exfalso
          have hsame : (i, j) = ring.cursor := by
            rw [(hmarked.good.advanced_slot hpc).2,
              hmarked.good.cursor_eq, ← hnewest, Nat.add_sub_cancel]
          simp only [RingBase.cursor, Prod.mk.injEq] at hsame
          apply hawaits rfl
          rw [hpc, hsame.1, hsame.2]
  | write _ => simp [ExecutesBusy, AwaitsStatus]
  | advance => simp [ExecutesBusy, AwaitsStatus]
  | storeBusy => simp [ExecutesBusy, AwaitsStatus]
  | poll => simp [ExecutesBusy, AwaitsStatus]
  | snapshot => simp [ExecutesBusy, AwaitsStatus]
  | publish => simp [ExecutesBusy, AwaitsStatus]

theorem afterExecute (hmarked : ring.Marked cfg)
    (hworker : ring.worker = .drain) (hsubmitted : ring.submitted ≠ 0)
    (hawaits : ring.producer ≠ .advanced ring.i ring.j) :
    (ring.execute cfg).Marked cfg where
  good := hmarked.good.afterExecute hworker hsubmitted
  busy := by
    intro i j hi hj hbusy
    change
      ((ring.table.setStatus ring.cursor .empty).entryAt
        (i, j)).rstatus = .busy at hbusy
    have hne : (i, j) ≠ ring.cursor := by
      intro hslot
      rw [hslot, EscaTable.setStatus_rstatus_self] at hbusy
      contradiction
    rw [EscaTable.setStatus_rstatus_of_ne _ _ hne] at hbusy
    obtain ⟨k, hcursor, htail, hslot, hpc⟩ :=
      hmarked.busy i j hi hj hbusy
    refine ⟨k, ?_, htail, hslot, hpc⟩
    have hk : k ≠ ring.executed.length := by
      intro hk
      apply hne
      rw [hslot, hk, hmarked.good.cursor_eq]
    change (ring.executed ++ [_]).length ≤ k
    rw [List.length_append, List.length_singleton]
    omega
  window := by
    intro i j hpc
    change ring.producer = .advanced i j at hpc
    have hlt := hmarked.window i j hpc
    change (ring.executed ++ [_]).length < ring.issued.length
    rw [List.length_append, List.length_singleton]
    by_contra hlast
    have hnewest :
        ring.issued.length - 1 = ring.executed.length := by omega
    have hsame : (i, j) = ring.cursor := by
      rw [(hmarked.good.advanced_slot hpc).2, hmarked.good.cursor_eq,
        hnewest]
    simp only [RingBase.cursor, Prod.mk.injEq] at hsame
    apply hawaits
    rw [hpc, hsame.1, hsame.2]

theorem afterStep (hmarked : ring.Marked cfg)
    (hshares : cfg.SharesEntries) {action : RingAction}
    (hsafe : ring.NoOverrun cfg action)
    (hawaits : ring.AwaitsStatus action)
    (hstep : ring.step cfg action = some next) :
    next.Marked cfg := by
  have hgood := hmarked.good.afterStep hsafe hstep
  cases action with
  | write call =>
      obtain ⟨hproducer, rfl⟩ := step_write hstep
      exact hmarked.afterWrite hproducer call
  | advance =>
      obtain ⟨i, j, call, hproducer, _, rfl⟩ := step_advance hstep
      exact hmarked.afterAdvance hproducer (hsafe rfl)
  | storeBusy =>
      obtain ⟨i, j, hproducer, rfl⟩ := step_storeBusy hstep
      exact hmarked.afterStoreBusy hshares hproducer
  | poll =>
      obtain ⟨_, rfl | ⟨_, rfl⟩⟩ := step_poll hstep
      · exact hmarked
      · exact hmarked.afterWorkerPoint hgood (fun _ => rfl) rfl rfl rfl
  | snapshot =>
      obtain ⟨_, rfl⟩ := step_snapshot hstep
      exact hmarked.afterWorkerPoint hgood (fun _ => rfl) rfl rfl rfl
  | execute =>
      obtain ⟨hworker, hsubmitted, rfl⟩ := step_execute hstep
      exact hmarked.afterExecute hworker hsubmitted (hawaits rfl)
  | publish =>
      obtain ⟨_, _, rfl⟩ := step_publish hstep
      exact hmarked.afterWorkerPoint hgood (fun _ => rfl) rfl rfl rfl

theorem cleanWhenDrained (hmarked : ring.Marked cfg) :
    ring.CleanWhenDrained cfg := by
  intro _ hcursor i j hi hj
  cases hstatus : (ring.table.entryAt (i, j)).rstatus with
  | empty => rfl
  | busy =>
      exfalso
      obtain ⟨k, hle, hlt, _, _⟩ := hmarked.busy i j hi hj hstatus
      have hlength := hmarked.good.executed_length_of_cursor hcursor
      omega

end Marked

/-- Along a run without overrun the worker executes only marked slots and
leaves a drained ring clean exactly when it never executes an entry before
the status store of its wrapped call. -/
theorem status_clean_iff_awaitsStatus (hshares : cfg.SharesEntries)
    (hrun : Transition.run (step cfg) (sysEscaRegister cfg memory)
      actions = some final)
    (hsafe : Transition.StepsMeet (step cfg) (NoOverrun cfg)
      (sysEscaRegister cfg memory) actions) :
    (Transition.StepsMeet (step cfg) ExecutesBusy
          (sysEscaRegister cfg memory) actions ∧
        Transition.StatesMeet (step cfg) (CleanWhenDrained cfg)
          (sysEscaRegister cfg memory) actions) ↔
      Transition.StepsMeet (step cfg) AwaitsStatus
        (sysEscaRegister cfg memory) actions := by
  have hstart := sysEscaRegister_marked cfg memory
  have hsteps :=
    Transition.stepsMeet_iff_of_invariant
      (fun _ _ _ hmarked _ hstep =>
        Marked.executesBusy_iff hmarked hshares hstep)
      (fun _ _ _ hmarked hsafe hawaits hstep =>
        Marked.afterStep hmarked hshares hsafe hawaits hstep)
      hstart hrun hsafe
  constructor
  · rintro ⟨hbusy, _⟩
    exact hsteps.mp hbusy
  · intro hawaits
    refine ⟨hsteps.mpr hawaits, ?_⟩
    exact Transition.statesMeet_of_invariant
      (fun _ hmarked => Marked.cleanWhenDrained hmarked)
      (fun _ _ _ hmarked hboth hstep =>
        Marked.afterStep hmarked hshares hboth.1 hboth.2 hstep)
      hstart (hsafe.and hawaits)

/-- Two calls are drained while a third is on its way, and the third while a
fourth is. -/
def overlappingCalls : List RingAction :=
  closeAll [5, 6] ++ [.write (closeCall 7), .poll, .advance, .snapshot,
    .execute, .storeBusy, .execute, .execute, .publish] ++
    [.write (closeCall 8), .poll, .advance, .storeBusy] ++ drainBatch 1

theorem overlappingCalls_clean :
    Transition.StepsMeet (step defaultTable) ExecutesBusy
        (sysEscaRegister defaultTable blankMemory) overlappingCalls ∧
      Transition.StatesMeet (step defaultTable)
        (CleanWhenDrained defaultTable)
        (sysEscaRegister defaultTable blankMemory) overlappingCalls := by
  have hrun :
      Transition.run (step defaultTable)
          (sysEscaRegister defaultTable blankMemory) overlappingCalls =
        some _ := rfl
  exact
    (status_clean_iff_awaitsStatus (by decide) hrun (by decide)).mpr
      (by decide)

/-- The second entry of `earlyBatch` is executed while its slot is empty, and
its slot stays marked busy on the drained ring. -/
theorem earlyBatch_leaves_mark :
    ¬ Transition.StepsMeet (step threeEntryTable) ExecutesBusy
        (sysEscaRegister threeEntryTable blankMemory) earlyBatch ∧
      ∃ final,
        Transition.run (step threeEntryTable)
            (sysEscaRegister threeEntryTable blankMemory) earlyBatch =
          some final ∧
        Transition.StepsMeet (step threeEntryTable)
          (NoOverrun threeEntryTable)
          (sysEscaRegister threeEntryTable blankMemory) earlyBatch ∧
        ¬ final.CleanWhenDrained threeEntryTable := by
  constructor
  · decide
  · refine ⟨_, rfl, by decide, ?_⟩
    intro hclean
    have hempty := hclean rfl rfl 0 1 (by decide) (by decide)
    exact absurd hempty (by decide)

end Ring

end Saio
