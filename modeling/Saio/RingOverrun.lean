import Saio.RingDelivery
import Mathlib.Tactic

/-!
# Overrun: what the spin of `update_index` protects

The spin compares `tail_entry + 1` with `head_entry` inside one table.  Inside
a table this is exactly the test that the next tail is not the published head.
When the tail stands at the last entry of a table the test is never true, and
the tail then moves onto the first entry of the next table whatever the head
is.

A run therefore overruns the ring exactly when some advance from the last
entry of a table finds the published head at the start of the next one.
-/

namespace Saio

namespace Ring

variable {cfg : TableConfig} {ring next final : Ring}
  {memory : ℕ → ℕ → TableEntry} {actions : List RingAction}

/-- Fewer entries are outstanding than the ring has slots, equal head and
tail mean that nothing is outstanding, and the slot the next wrapped call
fills holds no outstanding entry. -/
def OverrunFree (cfg : TableConfig) (ring : Ring) : Prop :=
  ring.pending.length ≤ cfg.capacity - 1 ∧
    (ring.table.tail = ring.table.head → ring.pending = []) ∧
    ∀ submission ∈ ring.pending, submission.slot ≠ ring.table.tail

/-- The first entry of the table after the one the tail is in. -/
def nextTableStart (cfg : TableConfig) (table : EscaTable) : ℕ × ℕ :=
  (if table.tailTable = cfg.maxTableLen - 1 then 0
    else table.tailTable + 1, 0)

/-- An advance that leaves a table does not find the published head at the
start of the next one. -/
def CrossesClear
    (cfg : TableConfig) (ring : Ring) (action : RingAction) : Prop :=
  action = .advance →
    ring.table.tailEntry = cfg.maxTableEntry - 1 →
      ring.table.head ≠ nextTableStart cfg ring.table

instance (cfg : TableConfig) (ring : Ring) (action : RingAction) :
    Decidable (ring.CrossesClear cfg action) :=
  inferInstanceAs (Decidable (_ → _ → _))

theorem updateIndex_tail_of_last
    {table : EscaTable}
    (hlast : table.tailEntry = cfg.maxTableEntry - 1) :
    (table.updateIndex cfg).tail = nextTableStart cfg table := by
  rw [EscaTable.updateIndex, if_pos hlast]
  rfl

/-- Inside a table the spin is exact. -/
theorem spinsFull_iff_of_not_last
    {table : EscaTable}
    (hlast : table.tailEntry ≠ cfg.maxTableEntry - 1) :
    table.SpinsFull ↔ (table.updateIndex cfg).tail = table.head := by
  rw [EscaTable.updateIndex, if_neg hlast]
  simp only [EscaTable.SpinsFull, EscaTable.tail, EscaTable.head,
    Prod.mk.injEq]
  exact and_comm

theorem noOverrun_of_crossesClear
    {action : RingAction}
    (hclear : ring.CrossesClear cfg action)
    (hstep : ring.step cfg action = some next) :
    ring.NoOverrun cfg action := by
  intro hadvance
  subst action
  obtain ⟨_, _, _, _, hspin, _⟩ := step_advance hstep
  by_cases hlast : ring.table.tailEntry = cfg.maxTableEntry - 1
  · rw [updateIndex_tail_of_last hlast]
    exact (hclear rfl hlast).symm
  · intro htail
    exact hspin ((spinsFull_iff_of_not_last hlast).mpr htail)

theorem Good.overrunFree (hgood : ring.Good cfg) :
    ring.OverrunFree cfg := by
  have hlap := hgood.issued_lt
  refine ⟨?_, ?_, ?_⟩
  · rw [pending, List.length_drop]
    omega
  · intro hequal
    obtain ⟨position, hhead, hle, hbound, _⟩ := hgood.published
    rw [hgood.tail_eq, hhead] at hequal
    have hposition : position = ring.issued.length :=
      cfg.slotAt_injective (hle.trans hgood.executed_le) hbound
        hequal.symm
    have hexecuted := hgood.executed_le
    rw [pending]
    exact List.drop_eq_nil_of_le (by omega)
  · intro submission hmem
    obtain ⟨k, hk⟩ := List.mem_iff_getElem?.mp hmem
    rw [pending, List.getElem?_drop] at hk
    have htail := (List.getElem?_eq_some_iff.mp hk).1
    rw [hgood.slot_eq _ _ hk, hgood.tail_eq]
    exact hgood.pending_ne_tail (Nat.le_add_right _ _) htail

theorem not_overrunFree_of_crossing (hgood : ring.Good cfg)
    {action : RingAction}
    (hcrossing : ¬ ring.CrossesClear cfg action)
    (hstep : ring.step cfg action = some next) :
    ¬ next.OverrunFree cfg := by
  simp only [CrossesClear, not_forall, not_not] at hcrossing
  obtain ⟨hadvance, hlast, hhead⟩ := hcrossing
  subst action
  obtain ⟨i, j, call, _, _, rfl⟩ := step_advance hstep
  rintro ⟨_, hempty, _⟩
  have hequal :
      (ring.advance cfg i j call).table.tail =
        (ring.advance cfg i j call).table.head := by
    change (ring.table.updateIndex cfg).tail =
      (ring.table.updateIndex cfg).head
    rw [updateIndex_tail_of_last hlast, EscaTable.updateIndex_head, hhead]
  have hnil := congrArg List.length (hempty hequal)
  have hle := hgood.executed_le
  change ((ring.issued ++ [_]).drop ring.executed.length).length = 0
    at hnil
  rw [List.length_drop, List.length_append, List.length_singleton] at hnil
  omega

/-- A run stays free of overrun exactly when each of its advances out of a
table finds the start of the next table clear of the published head. -/
theorem overrunFree_iff_crossesClear
    (hrun : Transition.run (step cfg) (sysEscaRegister cfg memory)
      actions = some final) :
    Transition.StatesMeet (step cfg) (OverrunFree cfg)
        (sysEscaRegister cfg memory) actions ↔
      Transition.StepsMeet (step cfg) (CrossesClear cfg)
        (sysEscaRegister cfg memory) actions :=
  Transition.statesMeet_iff_stepsMeet
    (fun _ hgood => Good.overrunFree hgood)
    (fun _ _ _ hgood hclear hstep =>
      Good.afterStep hgood
        (noOverrun_of_crossesClear hclear hstep) hstep)
    (fun _ _ _ hgood hcrossing hstep =>
      not_overrunFree_of_crossing hgood hcrossing hstep)
    (sysEscaRegister_good cfg memory) hrun

theorem earlyBatch_overrunFree :
    Transition.StatesMeet (step threeEntryTable)
      (OverrunFree threeEntryTable)
      (sysEscaRegister threeEntryTable blankMemory) earlyBatch := by
  have hrun :
      Transition.run (step threeEntryTable)
          (sysEscaRegister threeEntryTable blankMemory) earlyBatch =
        some _ := rfl
  exact (overrunFree_iff_crossesClear hrun).mpr (by decide)

/-- Three wrapped calls fill a table of three entries before the worker has
moved: the third advance puts the tail back onto the published head, with all
three entries outstanding. -/
theorem third_call_overruns :
    ∃ final,
      Transition.run (step threeEntryTable)
          (sysEscaRegister threeEntryTable blankMemory)
          (closeAll [5, 6] ++ [.write (closeCall 7), .advance]) =
        some final ∧
      final.table.tail = final.table.head ∧
      final.pending.length = 3 ∧
      ¬ final.OverrunFree threeEntryTable := by
  refine ⟨_, rfl, rfl, rfl, ?_⟩
  rintro ⟨hbound, _, _⟩
  exact absurd hbound (by decide)

end Ring

end Saio
