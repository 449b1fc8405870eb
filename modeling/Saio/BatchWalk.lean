import Saio.RingModel
import Mathlib.Tactic

/-!
# The size of a batch and the walk over it

`worker` sizes its batch by a formula in flat indices, stored into a 16-bit
counter, and then walks the entries with a two-level cursor until the counter
is zero.  The two agree on every ring with at most 32767 entries: the formula
is the circular distance from the cursor to the tail snapshot, and the loop
makes one turn for each slot of the interval between them.

The tail of `update_index` and the cursor of `worker` move by the same
successor function, so the two parties go through the slots in one order.
-/

namespace Saio

open CircularSlots

/-- The slots of a ring of these dimensions. -/
def TableConfig.InRing (cfg : TableConfig) (slot : ℕ × ℕ) : Prop :=
  CircularSlots.InRing cfg.maxTableEntry cfg.maxTableLen slot

instance (cfg : TableConfig) (slot : ℕ × ℕ) : Decidable (cfg.InRing slot) :=
  inferInstanceAs (Decidable (_ ∧ _))

/-- The values from `0` to the largest `short` are stored as they are. -/
theorem toShort_of_le {value : ℤ} (hlow : 0 ≤ value)
    (hhigh : value ≤ 32767) : toShort value = value := by
  unfold toShort
  rw [Int.bmod_eq_of_le] <;> omega

variable {cfg : TableConfig} {ring : Ring} {position remaining : ℕ}

/-- The two-branch formula is the distance from the cursor to the tail. -/
theorem batchCount_eq_distance {i j tailTable tailEntry : ℕ}
    (hcursor : cfg.InRing (i, j))
    (htail : cfg.InRing (tailTable, tailEntry)) :
    batchCount cfg i j tailTable tailEntry =
      distance cfg.maxTableEntry cfg.maxTableLen (i, j)
        (tailTable, tailEntry) := by
  have hcursorLt := flatIndex_lt hcursor
  have htailLt := flatIndex_lt htail
  unfold batchCount distance
  simp only [flatIndex] at hcursorLt htailLt ⊢
  zify at hcursorLt htailLt
  have hcursorTable : (0 : ℤ) ≤ i * cfg.maxTableEntry := by positivity
  have htailTable : (0 : ℤ) ≤ tailTable * cfg.maxTableEntry := by
    positivity
  push_cast
  split_ifs with hle
  · exact (Int.emod_eq_of_lt (by omega) (by omega)).symm
  · -- the tail has wrapped around, so the difference is negative
    rw [← Int.add_emod_right]
    rw [Int.emod_eq_of_lt (by omega) (by omega)]
    ring

namespace Ring

/-- The loop `while (submitted[cur_cpuid] != 0)` of `worker`, with the slots
it executes.  Without fuel it has no outcome. -/
def batchLoop (cfg : TableConfig) : ℕ → Ring → Option (List (ℕ × ℕ) × Ring)
  | 0, _ => none
  | fuel + 1, ring =>
      if ring.submitted = 0 then some ([], ring)
      else
        (batchLoop cfg fuel (ring.execute cfg)).map fun outcome =>
          (ring.cursor :: outcome.1, outcome.2)

theorem batchLoop_of_zero (hzero : ring.submitted = 0) (fuel : ℕ) :
    batchLoop cfg (fuel + 1) ring = some ([], ring) := by
  rw [batchLoop, if_pos hzero]

theorem batchLoop_of_ne_zero (hne : ring.submitted ≠ 0) (fuel : ℕ) :
    batchLoop cfg (fuel + 1) ring =
      (batchLoop cfg fuel (ring.execute cfg)).map fun outcome =>
        (ring.cursor :: outcome.1, outcome.2) := by
  rw [batchLoop, if_neg hne]

/-- From a cursor at some position the loop makes as many turns as the counter
says, and each of them moves the cursor to the next position. -/
theorem batchLoop_walks (hcursor : ring.cursor = cfg.slotAt position)
    (hsubmitted : ring.submitted = remaining)
    (hshort : remaining ≤ 32767) :
    ∃ final,
      final.cursor = cfg.slotAt (position + remaining) ∧
      final.submitted = 0 ∧
      ∀ fuel, remaining < fuel →
        batchLoop cfg fuel ring =
          some ((List.range remaining).map fun k =>
            cfg.slotAt (position + k), final) := by
  induction remaining generalizing ring position with
  | zero =>
      refine ⟨ring, hcursor, hsubmitted, ?_⟩
      intro fuel hfuel
      obtain ⟨fuel, rfl⟩ := Nat.exists_eq_add_one.mpr hfuel
      exact batchLoop_of_zero hsubmitted fuel
  | succ rest ih =>
      have hne : ring.submitted ≠ 0 := by
        rw [hsubmitted]
        omega
      have hnext :
          (ring.execute cfg).cursor = cfg.slotAt (position + 1) :=
        advanceCursor_of_slotAt hcursor
      have hcounter : (ring.execute cfg).submitted = rest := by
        change toShort (ring.submitted - 1) = rest
        rw [hsubmitted]
        push_cast
        rw [Int.add_sub_cancel, toShort_of_le (by omega) (by omega)]
      obtain ⟨final, hend, hzero, hloop⟩ :=
        ih hnext hcounter (by omega)
      refine ⟨final, ?_, hzero, ?_⟩
      · rw [hend]
        congr 1
        omega
      · intro fuel hfuel
        obtain ⟨fuel, rfl⟩ :=
          Nat.exists_eq_add_one.mpr (Nat.zero_lt_of_lt hfuel)
        rw [batchLoop_of_ne_zero hne, hloop fuel (by omega), hcursor,
          List.range_succ_eq_map]
        simp only [Option.map_some, List.map_cons, List.map_map,
          Nat.add_zero, Function.comp_def, Nat.add_assoc,
          Nat.succ_eq_add_one, Nat.add_comm 1]

/-- The turns of the loop are `execute` steps of the ring. -/
theorem run_of_batchLoop {fuel : ℕ} {slots : List (ℕ × ℕ)} {final : Ring}
    (hworker : ring.worker = .drain)
    (hloop : batchLoop cfg fuel ring = some (slots, final)) :
    Transition.run (step cfg) ring
      (List.replicate slots.length .execute) = some final := by
  induction fuel generalizing ring slots with
  | zero => simp [batchLoop] at hloop
  | succ fuel ih =>
      by_cases hzero : ring.submitted = 0
      · rw [batchLoop_of_zero hzero, Option.some.injEq,
          Prod.mk.injEq] at hloop
        obtain ⟨rfl, rfl⟩ := hloop
        rfl
      · rw [batchLoop_of_ne_zero hzero, Option.map_eq_some_iff] at hloop
        obtain ⟨⟨rest, last⟩, hrest, hequal⟩ := hloop
        cases hequal
        have hstep : ring.step cfg .execute = some (ring.execute cfg) := by
          simp [step, hworker, hzero]
        rw [List.length_cons, List.replicate_succ,
          Transition.run_cons_of_step hstep]
        exact ih hworker hrest

end Ring

/-! ## The two steps -/

/-- The cursor step of `worker` on a slot. -/
def cursorStep (cfg : TableConfig) (slot : ℕ × ℕ) : ℕ × ℕ :=
  advanceCursor cfg slot.1 slot.2

theorem cursorStep_slotAt (position : ℕ) :
    cursorStep cfg (cfg.slotAt position) = cfg.slotAt (position + 1) :=
  advanceCursor_of_slotAt rfl

theorem iterate_cursorStep_slotAt (position count : ℕ) :
    (cursorStep cfg)^[count] (cfg.slotAt position) =
      cfg.slotAt (position + count) := by
  induction count with
  | zero => rfl
  | succ count ih =>
      rw [Function.iterate_succ_apply', ih, cursorStep_slotAt,
        Nat.add_assoc]

theorem flatIndex_iterate_cursorStep {slot : ℕ × ℕ}
    (hslot : cfg.InRing slot) (count : ℕ) :
    flatIndex cfg.maxTableEntry ((cursorStep cfg)^[count] slot) =
      (flatIndex cfg.maxTableEntry slot + count) % cfg.capacity := by
  have hposition :
      cfg.slotAt (flatIndex cfg.maxTableEntry slot) = slot :=
    slotAt_flatIndex hslot
  have hreached : (cursorStep cfg)^[count] slot =
      cfg.slotAt (flatIndex cfg.maxTableEntry slot + count) := by
    rw [← iterate_cursorStep_slotAt, hposition]
  rw [hreached]
  exact flatIndex_slotAt _ _ _

/-- Producer and worker go through the slots in the same order. -/
theorem iterate_updateIndex_tail (table : EscaTable) (count : ℕ) :
    ((EscaTable.updateIndex cfg)^[count] table).tail =
      (cursorStep cfg)^[count] table.tail := by
  induction count with
  | zero => rfl
  | succ count ih =>
      rw [Function.iterate_succ_apply', Function.iterate_succ_apply',
        EscaTable.updateIndex_tail, ih]
      rfl

/-! ## The batch -/

namespace Ring

/-- The circular distance from the cursor to the tail. -/
def batch (cfg : TableConfig) (ring : Ring) : ℤ :=
  distance cfg.maxTableEntry cfg.maxTableLen ring.cursor ring.table.tail

theorem snapshot_submitted (hshort : cfg.capacity ≤ 32767)
    (hcursor : cfg.InRing ring.cursor)
    (htail : cfg.InRing ring.table.tail) :
    (ring.snapshot cfg).submitted = ring.batch cfg := by
  have hnonneg : 0 ≤ ring.batch cfg := distance_nonneg hcursor
  have hlt : ring.batch cfg < cfg.capacity := distance_lt hcursor
  change toShort (batchCount cfg ring.i ring.j ring.table.tailTable
    ring.table.tailEntry) = _
  rw [batchCount_eq_distance hcursor htail]
  exact toShort_of_le hnonneg (by change ring.batch cfg ≤ 32767; omega)

theorem batchLoop_of_snapshot (hshort : cfg.capacity ≤ 32767)
    (hcursor : cfg.InRing ring.cursor)
    (htail : cfg.InRing ring.table.tail) :
    ∃ final, final.cursor = ring.table.tail ∧ final.submitted = 0 ∧
      ∀ fuel : ℕ, ring.batch cfg < fuel →
        batchLoop cfg fuel (ring.snapshot cfg) =
          some (walk cfg.maxTableEntry cfg.maxTableLen ring.cursor
            (ring.batch cfg).toNat, final) := by
  have hnonneg : 0 ≤ ring.batch cfg := distance_nonneg hcursor
  have hlt : ring.batch cfg < cfg.capacity := distance_lt hcursor
  have hposition : (ring.snapshot cfg).cursor =
      cfg.slotAt (flatIndex cfg.maxTableEntry ring.cursor) :=
    (slotAt_flatIndex hcursor).symm
  have hcounter : (ring.snapshot cfg).submitted =
      ((ring.batch cfg).toNat : ℤ) := by
    rw [snapshot_submitted hshort hcursor htail]
    omega
  obtain ⟨final, hend, hzero, hloop⟩ :=
    batchLoop_walks hposition hcounter (by omega)
  refine ⟨final, ?_, hzero, ?_⟩
  · rw [hend]
    exact slotAt_distance hcursor htail
  · intro fuel hfuel
    exact hloop fuel (by omega)

/-- The batch formula and the cursor walk agree: the counter is the circular
distance from head to tail, the loop executes exactly the slots of that
interval, once and in order, and stops at the tail; and the cursor and the
tail move by one and the same successor. -/
theorem batch_agrees_with_walk (hshort : cfg.capacity ≤ 32767) :
    (∀ ring : Ring, cfg.InRing ring.cursor → cfg.InRing ring.table.tail →
      (ring.snapshot cfg).submitted = ring.batch cfg ∧
      ∃ slots final,
        (∀ fuel : ℕ, ring.batch cfg < fuel →
          batchLoop cfg fuel (ring.snapshot cfg) = some (slots, final)) ∧
        Transition.run (step cfg) (ring.snapshot cfg)
          (List.replicate slots.length .execute) = some final ∧
        (slots.length : ℤ) = ring.batch cfg ∧
        (∀ k slot, slots[k]? = some slot →
          flatIndex cfg.maxTableEntry slot =
            (flatIndex cfg.maxTableEntry ring.cursor + k) %
              cfg.capacity) ∧
        slots.Nodup ∧
        (∀ slot, slot ∈ slots ↔ cfg.InRing slot ∧
          distance cfg.maxTableEntry cfg.maxTableLen ring.cursor slot <
            ring.batch cfg) ∧
        final.cursor = ring.table.tail ∧ final.submitted = 0) ∧
      (∀ slot, cfg.InRing slot → ∀ count : ℕ,
        flatIndex cfg.maxTableEntry ((cursorStep cfg)^[count] slot) =
          (flatIndex cfg.maxTableEntry slot + count) % cfg.capacity) ∧
      ∀ (table : EscaTable) (count : ℕ),
        ((EscaTable.updateIndex cfg)^[count] table).tail =
          (cursorStep cfg)^[count] table.tail := by
  refine ⟨?_, fun slot hslot count =>
    flatIndex_iterate_cursorStep hslot count, iterate_updateIndex_tail⟩
  intro ring hcursor htail
  have hnonneg : 0 ≤ ring.batch cfg := distance_nonneg hcursor
  have hlt : ring.batch cfg < cfg.capacity := distance_lt hcursor
  have hsteps : (ring.batch cfg).toNat ≤ cfg.capacity := by omega
  obtain ⟨final, hend, hzero, hloop⟩ :=
    batchLoop_of_snapshot hshort hcursor htail
  refine ⟨snapshot_submitted hshort hcursor htail, _, final, hloop,
    run_of_batchLoop rfl (hloop ((ring.batch cfg).toNat + 1) (by omega)),
    ?_, ?_, ?_, ?_, hend, hzero⟩
  · rw [walk, List.length_map, List.length_range]
    omega
  · intro k slot hget
    rw [← getElem?_walk hget]
    exact flatIndex_slotAt _ _ _
  · exact walk_nodup hsteps
  · intro slot
    rw [mem_walk hcursor hsteps]
    constructor
    · rintro ⟨hslot, hless⟩
      exact ⟨hslot, by omega⟩
    · rintro ⟨hslot, hless⟩
      exact ⟨hslot, by omega⟩

/-- A ring whose batch goes over the end of its table. -/
def wrappedBatch : Ring :=
  let ring := sysEscaRegister threeEntryTable blankMemory
  { ring with j := 2, table := { ring.table with tailEntry := 1 } }

theorem wrappedBatch_agrees :
    (wrappedBatch.snapshot threeEntryTable).submitted = 2 ∧
      ∃ slots final,
        batchLoop threeEntryTable 3
          (wrappedBatch.snapshot threeEntryTable) = some (slots, final) ∧
        slots.length = 2 ∧ (0, 2) ∈ slots ∧ (0, 0) ∈ slots ∧
        final.cursor = (0, 1) := by
  have hbatch : wrappedBatch.batch threeEntryTable = 2 := by decide
  obtain ⟨hcount, slots, final, hloop, _, hlength, _, _, hmem, hend, _⟩ :=
    (batch_agrees_with_walk
      (show threeEntryTable.capacity ≤ 32767 by decide)).1
      wrappedBatch (by decide) (by decide)
  rw [hbatch] at hcount hlength
  refine ⟨hcount, slots, final, hloop 3 (by decide), ?_, ?_, ?_, hend⟩
  · exact_mod_cast hlength
  · exact (hmem (0, 2)).mpr (by decide)
  · exact (hmem (0, 0)).mpr (by decide)

end Ring

end Saio
