import Saio.TornSnapshot
import Mathlib.Tactic

/-!
# The marks of a torn ring

A wrapped call marks its entry busy behind both stores to the tail, and the
worker clears the mark when it executes the entry.  As long as the tail is
only met whole and the two arrays share their entries, every entry between the
cursor and the tail is marked, but for the newest one while its call is still
on the way.  A worker that finds the slot at its cursor empty between two calls
has nothing left to execute.
-/

namespace Saio

namespace TornRing

variable {cfg : TableConfig} {ring next : TornRing} {action : TornAction}

/-- The newest entry is not marked busy yet. -/
def unmarked (ring : TornRing) : Bool :=
  match ring.producer with
  | .idle => false
  | .written _ _ _ => false
  | .crossing _ _ => true
  | .advanced _ _ => true

/-- The slot that a call fills, by the stores made to `tail_entry`. -/
def FillsAt (cfg : TableConfig) (ring : TornRing) :
    TornProducerPc → Prop
  | .idle => True
  | .written i j _ => (i, j) = cfg.slotAt ring.stores
  | .crossing i j =>
      0 < ring.stores ∧ (i, j) = cfg.slotAt (ring.stores - 1)
  | .advanced i j =>
      0 < ring.stores ∧ (i, j) = cfg.slotAt (ring.stores - 1)

structure Marked (cfg : TableConfig) (ring : TornRing) : Prop where
  fills : ring.FillsAt cfg ring.producer
  status : cfg.SharesEntries →
    ∀ k, ring.executed.length ≤ k → k < ring.stores →
    (ring.table.entryAt (cfg.slotAt k)).rstatus = .busy ∨
      k + 1 = ring.stores ∧ ring.unmarked = true

theorem register_marked (cfg : TableConfig)
    (memory : ℕ → ℕ → TableEntry) : (register cfg memory).Marked cfg where
  fills := trivial
  status := by simp [register, stores]

namespace Marked

theorem busy (hmarked : ring.Marked cfg) (hshares : cfg.SharesEntries)
    (hmark : ring.unmarked = false) {k : ℕ}
    (hcursor : ring.executed.length ≤ k) (htail : k < ring.stores) :
    (ring.table.entryAt (cfg.slotAt k)).rstatus = .busy := by
  rcases hmarked.status hshares k hcursor htail with hbusy | ⟨_, hnone⟩
  · exact hbusy
  · rw [hmark] at hnone
    contradiction

/-- A step beside the producer that touches no mark from the cursor on. -/
theorem of_sameProducer (hmarked : ring.Marked cfg)
    (hproducer : next.producer = ring.producer)
    (hwritten : next.written = ring.written)
    (hexecuted : ring.executed.length ≤ next.executed.length)
    (hstatus : ∀ k, next.executed.length ≤ k → k < ring.stores →
      (next.table.entryAt (cfg.slotAt k)).rstatus =
        (ring.table.entryAt (cfg.slotAt k)).rstatus) :
    next.Marked cfg := by
  have hstores : next.stores = ring.stores := by
    unfold stores
    rw [hproducer, hwritten]
  have hunmarked : next.unmarked = ring.unmarked := by
    unfold unmarked
    rw [hproducer]
  constructor
  · have hfills := hmarked.fills
    rw [hproducer]
    unfold FillsAt at *
    rw [hstores]
    exact hfills
  · intro hshares k hcursor htail
    rw [hstores] at htail
    rw [hstatus k hcursor htail, hstores, hunmarked]
    exact hmarked.status hshares k (hexecuted.trans hcursor) htail

theorem afterWrite (hmarked : ring.Marked cfg) (hsound : ring.Sound cfg)
    (hproducer : ring.producer = .idle) (call : SysCall) :
    (ring.write cfg call).Marked cfg := by
  have hstores : (ring.write cfg call).stores = ring.stores := by
    simp [stores, write, hproducer]
  constructor
  · change (_, _) = cfg.slotAt (ring.write cfg call).stores
    rw [hstores]
    exact hsound.tail_of_clear (by simp [midCrossing, hproducer])
  · intro hshares k hcursor htail
    rw [hstores] at htail
    left
    exact (EscaTable.fillUser_rstatus cfg _ _ _ _).trans
      (hmarked.busy hshares (by simp [unmarked, hproducer]) hcursor
        htail)

theorem afterAdvance (hmarked : ring.Marked cfg)
    (hsound : ring.Sound cfg) {i j : ℕ} {call : SysCall}
    (hproducer : ring.producer = .written i j call) :
    (ring.advance cfg i j).Marked cfg := by
  have hslot : (i, j) = cfg.slotAt ring.stores := by
    have hfills := hmarked.fills
    rwa [hproducer] at hfills
  have hlength := hsound.stores_of_written hproducer
  have hstores : (ring.advance cfg i j).stores = ring.stores + 1 := by
    rw [hlength]
    unfold advance
    split <;> rfl
  have hunmarked : (ring.advance cfg i j).unmarked = true := by
    unfold advance
    split <;> rfl
  constructor
  · have hfilled : 0 < ring.written.length ∧
        (i, j) = cfg.slotAt (ring.written.length - 1) := by
      rw [← hlength, Nat.add_sub_cancel]
      exact ⟨Nat.succ_pos _, hslot⟩
    unfold advance
    split
    next => exact hfilled
    next => exact hfilled
  · intro hshares k hcursor htail
    have hsame : (ring.advance cfg i j).executed = ring.executed ∧
        ∀ slot, (ring.advance cfg i j).table.entryAt slot =
          ring.table.entryAt slot := by
      unfold advance
      split
      next => exact ⟨rfl, fun _ => rfl⟩
      next => exact ⟨rfl, fun _ => rfl⟩
    rw [hsame.1] at hcursor
    rw [hstores] at htail
    rw [hsame.2, hstores, hunmarked]
    rcases Nat.lt_succ_iff_lt_or_eq.mp htail with hold | rfl
    · exact Or.inl
        (hmarked.busy hshares (by simp [unmarked, hproducer]) hcursor
          hold)
    · exact Or.inr ⟨rfl, rfl⟩

theorem afterStoreTable (hmarked : ring.Marked cfg) {i j : ℕ}
    (hproducer : ring.producer = .crossing i j) :
    (ring.storeTable cfg i j).Marked cfg := by
  have hfills := hmarked.fills
  rw [hproducer] at hfills
  have hstores : (ring.storeTable cfg i j).stores = ring.stores := by
    simp [stores, storeTable, hproducer]
  constructor
  · change 0 < (ring.storeTable cfg i j).stores ∧
      _ = cfg.slotAt ((ring.storeTable cfg i j).stores - 1)
    rw [hstores]
    exact hfills
  · intro hshares k hcursor htail
    rw [hstores] at htail ⊢
    rcases hmarked.status hshares k hcursor htail with hbusy | ⟨hnewest, _⟩
    · exact Or.inl hbusy
    · exact Or.inr ⟨hnewest, rfl⟩

theorem afterStoreBusy (hmarked : ring.Marked cfg) {i j : ℕ}
    (hproducer : ring.producer = .advanced i j) :
    (ring.storeBusy cfg i j).Marked cfg := by
  have hfills := hmarked.fills
  rw [hproducer] at hfills
  have hstores : (ring.storeBusy cfg i j).stores = ring.stores := by
    simp [stores, storeBusy, hproducer]
  refine ⟨trivial, ?_⟩
  intro hshares k hcursor htail
  rw [hstores] at htail
  left
  change ((ring.table.markUser cfg (i, j)).entryAt _).rstatus = _
  by_cases hslot : cfg.slotAt k = (i, j)
  · rw [← hslot, ← EscaTable.userEntryAt_slotAt hshares]
    exact EscaTable.markUser_rstatus_self cfg _ _
  · have hne : cfg.slotAt k ≠ cfg.userSlot (i, j) := by
      rw [hfills.2, hshares.userSlot_slotAt, ← hfills.2]
      exact hslot
    rw [EscaTable.markUser_rstatus_of_ne _ hne]
    rcases hmarked.status hshares k hcursor htail with
      hbusy | ⟨hnewest, _⟩
    · exact hbusy
    · rw [hfills.2, ← hnewest, Nat.add_sub_cancel] at hslot
      exact absurd rfl hslot

theorem afterExecute (hmarked : ring.Marked cfg)
    (hsound : ring.Sound cfg) :
    (ring.execute cfg).Marked cfg := by
  have hlength : (ring.execute cfg).executed.length =
      ring.executed.length + 1 := by
    simp [execute]
  refine hmarked.of_sameProducer rfl rfl (by omega) ?_
  intro k hcursor htail
  rw [hlength] at hcursor
  have hlap := hsound.stores_lt
  apply EscaTable.setStatus_rstatus_of_ne
  rw [hsound.cursor_eq]
  exact (cfg.slotAt_ne (by omega) (by omega)).symm

theorem afterStep (hmarked : ring.Marked cfg) (hsound : ring.Sound cfg)
    (hstep : ring.step cfg action = some next) : next.Marked cfg := by
  cases action with
  | write call =>
      obtain ⟨hproducer, rfl⟩ := step_write hstep
      exact hmarked.afterWrite hsound hproducer call
  | advance =>
      obtain ⟨i, j, call, hproducer, rfl⟩ := step_advance hstep
      exact hmarked.afterAdvance hsound hproducer
  | storeTable =>
      obtain ⟨i, j, hproducer, rfl⟩ := step_storeTable hstep
      exact hmarked.afterStoreTable hproducer
  | storeBusy =>
      obtain ⟨i, j, hproducer, rfl⟩ := step_storeBusy hstep
      exact hmarked.afterStoreBusy hproducer
  | poll =>
      rcases step_poll hstep with rfl | rfl
      · exact hmarked
      · exact ⟨hmarked.fills, hmarked.status⟩
  | loadTable =>
      rcases step_loadTable hstep with ⟨_, rfl⟩ | ⟨_, _, rfl⟩
      · exact hmarked.of_sameProducer rfl rfl le_rfl fun _ _ _ => rfl
      · exact hmarked.of_sameProducer rfl rfl le_rfl fun _ _ _ => rfl
  | loadEntry =>
      rcases step_loadEntry hstep with ⟨_, rfl⟩ | ⟨_, _, rfl⟩
      · exact hmarked.of_sameProducer rfl rfl le_rfl fun _ _ _ => rfl
      · exact hmarked.of_sameProducer rfl rfl le_rfl fun _ _ _ => rfl
  | execute =>
      obtain ⟨_, _, rfl⟩ := step_execute hstep
      exact hmarked.afterExecute hsound
  | publish =>
      rw [step_publish hstep]
      exact hmarked.of_sameProducer rfl rfl le_rfl fun _ _ _ => rfl

/-- Between two calls an empty slot at the cursor means that everything is
executed. -/
theorem executed_all (hmarked : ring.Marked cfg)
    (hsound : ring.Sound cfg) (hshares : cfg.SharesEntries)
    (hidle : ring.producer = .idle)
    (hempty : ring.cursorEntry.rstatus = .empty) :
    ring.executed = ring.written.map Submission.call := by
  have hstores : ring.stores = ring.written.length := by
    simp [stores, hidle]
  have hdone : ring.written.length ≤ ring.executed.length := by
    by_contra hpending
    have hbusy := hmarked.busy hshares (by simp [unmarked, hidle])
      le_rfl (by omega)
    rw [← hsound.cursor_eq] at hbusy
    rw [RingBase.cursorEntry, hbusy] at hempty
    contradiction
  have hdelivered := (hsound.contents hshares).delivered
  rwa [List.take_of_length_le hdone] at hdelivered

end Marked

end TornRing

end Saio
