import Saio.RingInvariant
import Mathlib.Tactic

/-!
# The head as two words

`head_table` and `head_entry` are two separate words as well.  The worker
stores the table first and the entry second, and the spin of `update_index`
loads the entry first and the table only if the entries matched.  Here each of
these accesses is a step of its own; the tail still moves in one step.

As long as the tail has not passed the last head that was published
completely, a spin whose ring is full but for one entry meets a head that does
not move, so whatever it combines is that head.  A tail that passes this head
while the worker stands between its two stores is compared with an entry word
that belongs to the old head, and then leaves the spin of a full ring.
-/

namespace Saio

open CircularSlots

/-- Where the spin of `update_index` stands. -/
inductive SpinPc
  | loadEntry
  | loadTable
  | left
  deriving DecidableEq

/-- A ring with finer control points: `spin` is that of the wrapped call whose
slot is written, and `replaced` is the table word that the worker has already
overwritten, while it stands between its two head stores. -/
structure HeadRing where
  ring : Ring
  spin : SpinPc
  replaced : Option ℕ

inductive HeadAction
  | write (call : SysCall)
  | loadHeadEntry
  | loadHeadTable
  | advance
  | storeBusy
  | poll
  | snapshot
  | execute
  | storeHeadTable
  | storeHeadEntry
  deriving DecidableEq

namespace HeadRing

def register
    (cfg : TableConfig) (memory : ℕ → ℕ → TableEntry) : HeadRing where
  ring := sysEscaRegister cfg memory
  spin := .loadEntry
  replaced := none

/-- The first operand of the spin condition. -/
def loadHeadEntry (state : HeadRing) : HeadRing :=
  { state with
    spin :=
      if state.ring.table.tailEntry + 1 = state.ring.table.headEntry
      then .loadTable else .left }

/-- The second operand, evaluated only if the first one holds. -/
def loadHeadTable (state : HeadRing) : HeadRing :=
  { state with
    spin :=
      if state.ring.table.tailTable = state.ring.table.headTable
      then .loadEntry else .left }

def storeHeadTable (state : HeadRing) : HeadRing :=
  { state with
    ring :=
      { state.ring with
        table := { state.ring.table with headTable := state.ring.i } }
    replaced := some state.ring.table.headTable }

def storeHeadEntry (state : HeadRing) : HeadRing :=
  { state with
    ring :=
      { state.ring with
        table := { state.ring.table with headEntry := state.ring.j }
        worker := .poll }
    replaced := none }

def step (cfg : TableConfig) (state : HeadRing) :
    HeadAction → Option HeadRing
  | .write call =>
      match state.ring.producer with
      | .idle =>
          some { state with
            ring := state.ring.write cfg call
            spin := .loadEntry }
      | _ => none
  | .loadHeadEntry =>
      match state.ring.producer, state.spin with
      | .written _ _ _, .loadEntry => some state.loadHeadEntry
      | _, _ => none
  | .loadHeadTable =>
      match state.ring.producer, state.spin with
      | .written _ _ _, .loadTable => some state.loadHeadTable
      | _, _ => none
  | .advance =>
      match state.ring.producer, state.spin with
      | .written i j call, .left =>
          some { state with ring := state.ring.advance cfg i j call }
      | _, _ => none
  | .storeBusy =>
      match state.ring.producer with
      | .advanced i j =>
          some { state with ring := state.ring.storeBusy cfg i j }
      | _ => none
  | .poll =>
      if state.ring.worker = .poll then
        some { state with ring := state.ring.poll }
      else none
  | .snapshot =>
      if state.ring.worker = .snapshot then
        some { state with ring := state.ring.snapshot cfg }
      else none
  | .execute =>
      if state.ring.worker = .drain ∧ state.ring.submitted ≠ 0 then
        some { state with ring := state.ring.execute cfg }
      else none
  | .storeHeadTable =>
      if state.ring.worker = .drain ∧ state.ring.submitted = 0 ∧
          state.replaced = none then
        some state.storeHeadTable
      else none
  | .storeHeadEntry =>
      match state.replaced with
      | some _ => some state.storeHeadEntry
      | none => none

/-- The step does not advance the tail onto the head as it stands in the
table. -/
def NoOverrun (cfg : TableConfig) (state : HeadRing)
    (action : HeadAction) : Prop :=
  action = .advance →
    (state.ring.table.updateIndex cfg).tail ≠ state.ring.table.head

instance (cfg : TableConfig) (state : HeadRing) (action : HeadAction) :
    Decidable (state.NoOverrun cfg action) :=
  inferInstanceAs (Decidable (_ → _))

/-- The step does not advance the tail onto the head that the worker is about
to replace, of which only the entry word is left. -/
def ClearOfReplaced (cfg : TableConfig) (state : HeadRing)
    (action : HeadAction) : Prop :=
  action = .advance → ∀ previous ∈ state.replaced,
    (state.ring.table.updateIndex cfg).tail ≠
      (previous, state.ring.table.headEntry)

instance (cfg : TableConfig) (state : HeadRing) (action : HeadAction) :
    Decidable (state.ClearOfReplaced cfg action) :=
  inferInstanceAs (Decidable (_ → ∀ previous ∈ state.replaced, _))

/-- A call that has left the spin inside a table finds room for two more
entries. -/
def LeavesRoom (cfg : TableConfig) (state : HeadRing) : Prop :=
  ∀ i j call, state.ring.producer = .written i j call →
    state.spin = .left →
    state.ring.table.tailEntry ≠ cfg.maxTableEntry - 1 →
      state.ring.pending.length + 2 ≤ cfg.capacity

/-! ## Inversion of the step function -/

variable {cfg : TableConfig} {state next final : HeadRing}
  {memory : ℕ → ℕ → TableEntry} {actions : List HeadAction}

/-- What one step can do. -/
inductive Move (cfg : TableConfig) (state : HeadRing) :
    HeadAction → HeadRing → Prop
  | write (call : SysCall) (hproducer : state.ring.producer = .idle) :
      Move cfg state (.write call)
        { state with
          ring := state.ring.write cfg call
          spin := .loadEntry }
  | loadEntry : Move cfg state .loadHeadEntry state.loadHeadEntry
  | loadTable : Move cfg state .loadHeadTable state.loadHeadTable
  | advance (i j : ℕ) (call : SysCall)
      (hproducer : state.ring.producer = .written i j call) :
      Move cfg state .advance
        { state with ring := state.ring.advance cfg i j call }
  | storeBusy (i j : ℕ)
      (hproducer : state.ring.producer = .advanced i j) :
      Move cfg state .storeBusy
        { state with ring := state.ring.storeBusy cfg i j }
  | spin : Move cfg state .poll state
  | poll (hworker : state.ring.worker = .poll) :
      Move cfg state .poll
        { state with ring := { state.ring with worker := .snapshot } }
  | snapshot (hworker : state.ring.worker = .snapshot) :
      Move cfg state .snapshot
        { state with ring := state.ring.snapshot cfg }
  | execute (hworker : state.ring.worker = .drain)
      (hsubmitted : state.ring.submitted ≠ 0) :
      Move cfg state .execute
        { state with ring := state.ring.execute cfg }
  | storeTable (hworker : state.ring.worker = .drain)
      (hsubmitted : state.ring.submitted = 0)
      (hwhole : state.replaced = none) :
      Move cfg state .storeHeadTable state.storeHeadTable
  | storeEntry (previous : ℕ)
      (hreplaced : state.replaced = some previous) :
      Move cfg state .storeHeadEntry state.storeHeadEntry

theorem step_move {action : HeadAction}
    (hstep : state.step cfg action = some next) :
    Move cfg state action next := by
  unfold step at hstep
  split at hstep
  next call =>
    split at hstep
    next hproducer =>
      cases hstep
      exact .write call hproducer
    next => simp at hstep
  next =>
    split at hstep
    next =>
      cases hstep
      exact .loadEntry
    next => simp at hstep
  next =>
    split at hstep
    next =>
      cases hstep
      exact .loadTable
    next => simp at hstep
  next =>
    split at hstep
    next i j call hproducer _ =>
      cases hstep
      exact .advance i j call hproducer
    next => simp at hstep
  next =>
    split at hstep
    next i j hproducer =>
      cases hstep
      exact .storeBusy i j hproducer
    next => simp at hstep
  next =>
    split at hstep
    next hworker =>
      cases hstep
      unfold Ring.poll
      split
      next => exact .spin
      next => exact .poll hworker
    next => simp at hstep
  next =>
    split at hstep
    next hworker =>
      cases hstep
      exact .snapshot hworker
    next => simp at hstep
  next =>
    split at hstep
    next hguard =>
      cases hstep
      exact .execute hguard.1 hguard.2
    next => simp at hstep
  next =>
    split at hstep
    next hguard =>
      cases hstep
      exact .storeTable hguard.1 hguard.2.1 hguard.2.2
    next => simp at hstep
  next =>
    split at hstep
    next previous hreplaced =>
      cases hstep
      exact .storeEntry previous hreplaced
    next => simp at hstep

/-! ## The last complete head -/

/-- The ring with the last head that was published completely. -/
def settled (state : HeadRing) : Ring :=
  match state.replaced with
  | none => state.ring
  | some previous =>
      { state.ring with
        table := { state.ring.table with headTable := previous } }

structure Sound (cfg : TableConfig) (state : HeadRing) : Prop where
  good : state.settled.Good cfg
  storing : ∀ previous, state.replaced = some previous →
    state.ring.worker = .drain ∧ state.ring.submitted = 0 ∧
      state.ring.table.headTable = state.ring.i
  room : state.LeavesRoom cfg

theorem settled_of_none (hwhole : state.replaced = none) :
    state.settled = state.ring := by
  simp [settled, hwhole]

theorem settled_of_some {previous : ℕ}
    (hreplaced : state.replaced = some previous) :
    state.settled =
      { state.ring with
        table := { state.ring.table with headTable := previous } } := by
  simp [settled, hreplaced]

/-- The last complete head differs from the table only in the table word of
the head. -/
theorem settled_eq (state : HeadRing) :
    ∃ headTable, state.settled =
      { state.ring with
        table := { state.ring.table with headTable := headTable } } := by
  cases hreplaced : state.replaced with
  | none => exact ⟨_, settled_of_none hreplaced⟩
  | some previous => exact ⟨previous, settled_of_some hreplaced⟩

@[simp] theorem settled_issued (state : HeadRing) :
    state.settled.issued = state.ring.issued := by
  obtain ⟨headTable, hequal⟩ := state.settled_eq
  rw [hequal]

@[simp] theorem settled_executed (state : HeadRing) :
    state.settled.executed = state.ring.executed := by
  obtain ⟨headTable, hequal⟩ := state.settled_eq
  rw [hequal]

@[simp] theorem settled_producer (state : HeadRing) :
    state.settled.producer = state.ring.producer := by
  obtain ⟨headTable, hequal⟩ := state.settled_eq
  rw [hequal]

@[simp] theorem settled_tail (state : HeadRing) :
    state.settled.table.tail = state.ring.table.tail := by
  obtain ⟨headTable, hequal⟩ := state.settled_eq
  rw [hequal]
  rfl

theorem settled_write (state : HeadRing) (call : SysCall)
    (spin : SpinPc) :
    settled { state with
        ring := state.ring.write cfg call
        spin := spin } = state.settled.write cfg call := by
  obtain ⟨ring, spin, replaced⟩ := state
  cases replaced <;> rfl

theorem settled_storeBusy (state : HeadRing) (i j : ℕ) :
    settled { state with ring := state.ring.storeBusy cfg i j } =
      state.settled.storeBusy cfg i j := by
  obtain ⟨ring, spin, replaced⟩ := state
  cases replaced <;> rfl

theorem settled_advance (state : HeadRing) (i j : ℕ) (call : SysCall) :
    settled { state with ring := state.ring.advance cfg i j call } =
      state.settled.advance cfg i j call := by
  obtain ⟨ring, spin, replaced⟩ := state
  cases replaced with
  | none => rfl
  | some previous =>
      by_cases hlast : ring.table.tailEntry = cfg.maxTableEntry - 1
      · simp [settled, Ring.advance, EscaTable.updateIndex, hlast]
      · simp [settled, Ring.advance, EscaTable.updateIndex, hlast]

/-- The head that a step must not reach is the last complete one. -/
theorem settled_noOverrun (hsafe : state.NoOverrun cfg .advance)
    (hclear : state.ClearOfReplaced cfg .advance) :
    (state.settled.table.updateIndex cfg).tail ≠
      state.settled.table.head := by
  rw [EscaTable.updateIndex_tail, settled_tail,
    ← EscaTable.updateIndex_tail]
  cases hreplaced : state.replaced with
  | none =>
      rw [settled_of_none hreplaced]
      exact hsafe rfl
  | some previous =>
      rw [settled_of_some hreplaced]
      exact hclear rfl previous hreplaced

theorem register_sound
    (cfg : TableConfig) (memory : ℕ → ℕ → TableEntry) :
    (register cfg memory).Sound cfg where
  good := Ring.sysEscaRegister_good cfg memory
  storing := by simp [register]
  room := by simp [LeavesRoom, register, sysEscaRegister]

theorem pending_length (state : HeadRing) :
    state.ring.pending.length =
      state.ring.issued.length - state.ring.executed.length :=
  List.length_drop

namespace Sound

/-- While one more entry would fill the ring, the head cannot have moved since
the spin began, and both words of it match the tail. -/
theorem spin_holds (hsound : state.Sound cfg)
    (hfull : state.ring.issued.length + 1 =
      state.ring.executed.length + cfg.capacity)
    (hinside : state.ring.table.tailEntry ≠ cfg.maxTableEntry - 1) :
    state.ring.table.tailEntry + 1 = state.ring.table.headEntry ∧
      state.ring.table.tailTable = state.ring.table.headTable := by
  obtain ⟨position, hhead, hle, hlap, _⟩ := hsound.good.published
  rw [settled_issued] at hlap
  rw [settled_executed] at hle
  have hposition : position = state.ring.executed.length := by omega
  have htail := hsound.good.tail_eq
  have hcursor := hsound.good.cursor_eq
  rw [settled_tail, settled_issued] at htail
  rw [settled_executed] at hcursor
  have hnext : (state.ring.table.tailTable,
      state.ring.table.tailEntry + 1) =
        cfg.slotAt state.ring.executed.length := by
    rw [← cfg.slotAt_add_capacity, ← hfull,
      ← EscaTable.updateIndex_tail_of_slotAt htail,
      EscaTable.updateIndex_tail, successor_of_not_last hinside]
    rfl
  rw [hposition, ← hnext] at hhead
  cases hreplaced : state.replaced with
  | none =>
      rw [settled_of_none hreplaced] at hhead
      have hwords := Prod.mk.inj hhead
      exact ⟨hwords.2.symm, hwords.1.symm⟩
  | some previous =>
      -- the table word is the new one already, and equals the old
      rw [settled_of_some hreplaced] at hhead hcursor
      have hwords := Prod.mk.inj hhead
      rw [← hnext] at hcursor
      have hcells := Prod.mk.inj hcursor
      rw [(hsound.storing previous hreplaced).2.2]
      exact ⟨hwords.2.symm, hcells.1.symm⟩

/-- A spin that one of its loads has ended leaves room. -/
theorem leavesRoom_of_mismatch (hsound : state.Sound cfg)
    (hmismatch :
      state.ring.table.tailEntry + 1 ≠ state.ring.table.headEntry ∨
        state.ring.table.tailTable ≠ state.ring.table.headTable)
    (hinside : state.ring.table.tailEntry ≠ cfg.maxTableEntry - 1) :
    state.ring.pending.length + 2 ≤ cfg.capacity := by
  have hle := hsound.good.executed_le
  have hlt := hsound.good.issued_lt
  rw [settled_issued, settled_executed] at hle hlt
  have hnotFull : state.ring.issued.length + 1 ≠
      state.ring.executed.length + cfg.capacity := by
    intro hfull
    obtain ⟨hentry, htable⟩ := hsound.spin_holds hfull hinside
    rcases hmismatch with hne | hne
    · exact hne hentry
    · exact hne htable
  rw [pending_length]
  omega

theorem afterWrite (hsound : state.Sound cfg)
    (hproducer : state.ring.producer = .idle) (call : SysCall) :
    Sound cfg { state with
      ring := state.ring.write cfg call
      spin := .loadEntry } where
  good := by
    rw [settled_write]
    exact hsound.good.afterWrite (by simpa using hproducer) call
  storing := hsound.storing
  room := by
    intro i j call _ hleft
    contradiction

theorem afterLoadEntry (hsound : state.Sound cfg) :
    state.loadHeadEntry.Sound cfg where
  good := hsound.good
  storing := hsound.storing
  room := by
    intro i j call _ hleft hinside
    by_cases hmatch :
        state.ring.table.tailEntry + 1 = state.ring.table.headEntry
    · simp [loadHeadEntry, hmatch] at hleft
    · exact hsound.leavesRoom_of_mismatch (Or.inl hmatch) hinside

theorem afterLoadTable (hsound : state.Sound cfg) :
    state.loadHeadTable.Sound cfg where
  good := hsound.good
  storing := hsound.storing
  room := by
    intro i j call _ hleft hinside
    by_cases hmatch :
        state.ring.table.tailTable = state.ring.table.headTable
    · simp [loadHeadTable, hmatch] at hleft
    · exact hsound.leavesRoom_of_mismatch (Or.inr hmatch) hinside

theorem afterAdvance (hsound : state.Sound cfg)
    {i j : ℕ} {call : SysCall}
    (hproducer : state.ring.producer = .written i j call)
    (hsafe : state.NoOverrun cfg .advance)
    (hclear : state.ClearOfReplaced cfg .advance) :
    Sound cfg { state with ring := state.ring.advance cfg i j call } where
  good := by
    rw [settled_advance]
    exact hsound.good.afterAdvance (by simpa using hproducer)
      (settled_noOverrun hsafe hclear)
  storing := by
    intro previous hreplaced
    obtain ⟨hworker, hsubmitted, hhead⟩ :=
      hsound.storing previous hreplaced
    refine ⟨hworker, hsubmitted, ?_⟩
    have hsame := EscaTable.updateIndex_head cfg state.ring.table
    exact (Prod.mk.inj hsame).1.trans hhead
  room := by
    intro i j call hwritten
    contradiction

theorem afterStoreBusy (hsound : state.Sound cfg) {i j : ℕ}
    (hproducer : state.ring.producer = .advanced i j) :
    Sound cfg { state with ring := state.ring.storeBusy cfg i j } where
  good := by
    rw [settled_storeBusy]
    exact hsound.good.afterStoreBusy (by simpa using hproducer)
  storing := hsound.storing
  room := by
    intro i j call hwritten
    contradiction

/-- A step of the worker that leaves the head words, the tail and the issued
calls alone. -/
theorem afterWorker (hsound : state.Sound cfg) {moved : Ring}
    (hwhole : state.replaced = none) (hgood : moved.Good cfg)
    (hproducer : moved.producer = state.ring.producer)
    (htail : moved.table.tail = state.ring.table.tail)
    (hissued : moved.issued = state.ring.issued)
    (hexecuted :
      state.ring.executed.length ≤ moved.executed.length) :
    Sound cfg { state with ring := moved } where
  good := by
    have hsettled : settled { state with ring := moved } = moved :=
      settled_of_none hwhole
    rw [hsettled]
    exact hgood
  storing := by simp [hwhole]
  room := by
    intro i j call hwritten hleft hinside
    have hentry : moved.table.tailEntry = state.ring.table.tailEntry :=
      (Prod.mk.inj htail).2
    change moved.producer = _ at hwritten
    change moved.table.tailEntry ≠ _ at hinside
    rw [hproducer] at hwritten
    rw [hentry] at hinside
    have hroom := hsound.room i j call hwritten hleft hinside
    rw [pending_length] at hroom ⊢
    change moved.issued.length - moved.executed.length + 2 ≤ _
    rw [hissued]
    omega

/-- Between its two head stores the worker is at the end of a batch. -/
theorem replaced_eq_none (hsound : state.Sound cfg)
    (hbusy : state.ring.worker ≠ .drain ∨ state.ring.submitted ≠ 0) :
    state.replaced = none := by
  cases hreplaced : state.replaced with
  | none => rfl
  | some previous =>
      obtain ⟨hworker, hsubmitted, _⟩ := hsound.storing previous hreplaced
      rcases hbusy with hne | hne
      · exact absurd hworker hne
      · exact absurd hsubmitted hne

theorem good_of_none (hsound : state.Sound cfg)
    (hwhole : state.replaced = none) : state.ring.Good cfg := by
  have hgood := hsound.good
  rw [settled_of_none hwhole] at hgood
  exact hgood

theorem afterStoreTable (hsound : state.Sound cfg)
    (hworker : state.ring.worker = .drain)
    (hsubmitted : state.ring.submitted = 0)
    (hwhole : state.replaced = none) :
    state.storeHeadTable.Sound cfg where
  good := hsound.good_of_none hwhole
  storing := fun _ _ => ⟨hworker, hsubmitted, rfl⟩
  room := hsound.room

/-- With the second store the head is complete again, and stands where the
whole publication of the ring would put it. -/
theorem afterStoreEntry (hsound : state.Sound cfg) {previous : ℕ}
    (hreplaced : state.replaced = some previous) :
    state.storeHeadEntry.Sound cfg where
  good := by
    have hhead := (hsound.storing previous hreplaced).2.2
    have hpublished : state.storeHeadEntry.settled =
        state.settled.publish := by
      rw [settled_of_some hreplaced, settled_of_none rfl]
      simp [storeHeadEntry, Ring.publish, RingBase.publish, hhead]
    rw [hpublished]
    exact hsound.good.afterPublish
  storing := by simp [storeHeadEntry]
  room := hsound.room

theorem afterStep (hsound : state.Sound cfg) {action : HeadAction}
    (hsafe : state.NoOverrun cfg action)
    (hclear : state.ClearOfReplaced cfg action)
    (hstep : state.step cfg action = some next) :
    next.Sound cfg := by
  cases step_move hstep with
  | write call hproducer => exact hsound.afterWrite hproducer call
  | loadEntry => exact hsound.afterLoadEntry
  | loadTable => exact hsound.afterLoadTable
  | advance i j call hproducer =>
      exact hsound.afterAdvance hproducer hsafe hclear
  | storeBusy i j hproducer => exact hsound.afterStoreBusy hproducer
  | spin => exact hsound
  | poll hworker =>
      have hwhole := hsound.replaced_eq_none
        (Or.inl (by simp [hworker]))
      exact hsound.afterWorker hwhole
        ((hsound.good_of_none hwhole).afterSnapshotPoint hworker)
        rfl rfl rfl le_rfl
  | snapshot hworker =>
      have hwhole := hsound.replaced_eq_none
        (Or.inl (by simp [hworker]))
      exact hsound.afterWorker hwhole
        (hsound.good_of_none hwhole).afterSnapshot
        rfl rfl rfl le_rfl
  | execute hworker hsubmitted =>
      have hwhole := hsound.replaced_eq_none (Or.inr hsubmitted)
      exact hsound.afterWorker hwhole
        ((hsound.good_of_none hwhole).afterExecute hworker hsubmitted)
        rfl rfl rfl (by simp [Ring.execute])
  | storeTable hworker hsubmitted hwhole =>
      exact hsound.afterStoreTable hworker hsubmitted hwhole
  | storeEntry previous hreplaced =>
      exact hsound.afterStoreEntry hreplaced

end Sound

/-- In every run without overrun whose tail does not pass the head that the
worker is about to replace, a call leaves the spin inside a table only while
there is room for two more entries. -/
theorem spin_exit_leaves_room
    (hrun : Transition.run (step cfg) (register cfg memory)
      actions = some final)
    (hsafe : Transition.StepsMeet (step cfg) (NoOverrun cfg)
      (register cfg memory) actions)
    (hclear : Transition.StepsMeet (step cfg) (ClearOfReplaced cfg)
      (register cfg memory) actions) :
    final.LeavesRoom cfg :=
  (Transition.run_invariant
    (fun _ _ _ hsound hboth hstep =>
      Sound.afterStep hsound hboth.1 hboth.2 hstep)
    (register_sound cfg memory) hrun
    (hsafe.and hclear)).room

/-! ## Concrete runs -/

/-- A wrapped call that the first load of its spin lets go. -/
def freeCall (fd : ℤ) : List HeadAction :=
  [.write (closeCall fd), .loadHeadEntry, .advance, .storeBusy]

/-- A wrapped call whose spin loads both words once. -/
def matchedCall (fd : ℤ) : List HeadAction :=
  [.write (closeCall fd), .loadHeadEntry, .loadHeadTable, .advance,
    .storeBusy]

/-- Two entries are executed and the head is published at `(0, 2)`; two more
are executed and not published yet. -/
def secondBatch : List HeadAction :=
  freeCall 5 ++ freeCall 6 ++
    [.poll, .snapshot, .execute, .execute,
      .storeHeadTable, .storeHeadEntry] ++
    freeCall 7 ++ freeCall 8 ++ [.poll, .snapshot, .execute, .execute]

/-- The last call leaves its spin between the two head stores. -/
def betweenStores : List HeadAction :=
  secondBatch ++ matchedCall 9 ++ [.storeHeadTable] ++ freeCall 10 ++
    [.write (closeCall 11), .loadHeadEntry]

theorem betweenStores_leaves_room :
    ∃ final,
      Transition.run (step twoTables) (register twoTables blankMemory)
        betweenStores = some final ∧
      final.replaced = some 0 ∧ final.spin = .left ∧
      final.ring.pending.length = 2 ∧ final.LeavesRoom twoTables := by
  have hrun :
      Transition.run (step twoTables) (register twoTables blankMemory)
        betweenStores = some _ := rfl
  exact ⟨_, hrun, rfl, rfl, rfl,
    spin_exit_leaves_room hrun (by decide) (by decide)⟩

/-- Three calls fill the ring up to the old head, the worker stores the table
word of the new one, and two calls go on past the old head.  The entry word is
still the old one when the last call loads it. -/
def halfPublished : List HeadAction :=
  secondBatch ++ matchedCall 9 ++ freeCall 10 ++ freeCall 11 ++
    [.storeHeadTable] ++ matchedCall 12 ++ freeCall 13 ++
    [.write (closeCall 14), .loadHeadEntry]

/-- The last call leaves the spin with five of six slots pending, although no
advance has met the head and no state held more than five pending entries; its
own advance makes the full ring look empty to the worker. -/
theorem halfPublished_overfills :
    ∃ final,
      Transition.run (step twoTables) (register twoTables blankMemory)
        halfPublished = some final ∧
      Transition.StepsMeet (step twoTables) (NoOverrun twoTables)
        (register twoTables blankMemory) halfPublished ∧
      Transition.StepsMeet (step twoTables)
        (fun state _ => state.ring.pending.length < twoTables.capacity)
        (register twoTables blankMemory) halfPublished ∧
      final.ring.pending.length = 5 ∧
      ¬ final.LeavesRoom twoTables ∧
      ∃ full, final.step twoTables .advance = some full ∧
        full.ring.pending.length = 6 ∧
        full.ring.table.tail = full.ring.cursor := by
  have hrun :
      Transition.run (step twoTables) (register twoTables blankMemory)
        halfPublished = some _ := rfl
  refine ⟨_, hrun, by decide, by decide, rfl, ?_, _, rfl, rfl, rfl⟩
  intro hroom
  exact absurd (hroom 1 0 (closeCall 14) rfl rfl (by decide)) (by decide)

end HeadRing

end Saio
