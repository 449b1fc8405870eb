import Saio.TornMarks
import Saio.TornHead
import Mathlib.Tactic

/-!
# Every index word on its own

`head_table`, `head_entry`, `tail_table` and `tail_entry` are four separate
words.  Here every load and every store of each of them is a step of its own,
on both sides of the ring.

The source leaves three windows open.  A tail that leaves its table is never
compared with the head; a spin may be left on a head of which the worker has
replaced only the table word; and a snapshot may meet the two stores of a
crossing.  As long as no step falls into one of them, the ring moves as the
one with a whole head does, seen at the last head that was published
completely.  Nothing is then overrun, counted twice or lost: when the two
arrays share their entries the calls are executed in order, and a worker that
finds its slot empty has executed all of them.
-/

namespace Saio

open CircularSlots

/-! ## What a whole head does not see -/

namespace TornRing

variable {cfg : TableConfig} {ring next : TornRing} {action : TornAction}

def withHeadTable (ring : TornRing) (headTable : ℕ) : TornRing :=
  { ring with table := { ring.table with headTable := headTable } }

/-- An access to no word of the head. -/
def BesideHead (action : TornAction) : Prop :=
  action ≠ .advance ∧ action ≠ .publish

theorem step_withHeadTable (hbeside : BesideHead action) (headTable : ℕ)
    (hstep : ring.step cfg action = some next) :
    (ring.withHeadTable headTable).step cfg action =
      some (next.withHeadTable headTable) := by
  cases action with
  | advance => exact absurd rfl hbeside.1
  | publish => exact absurd rfl hbeside.2
  | write call =>
      obtain ⟨hproducer, rfl⟩ := step_write hstep
      simp only [step, withHeadTable, hproducer]
      rfl
  | storeTable =>
      obtain ⟨i, j, hproducer, rfl⟩ := step_storeTable hstep
      simp only [step, withHeadTable, hproducer]
      rfl
  | storeBusy =>
      obtain ⟨i, j, hproducer, rfl⟩ := step_storeBusy hstep
      simp only [step, withHeadTable, hproducer]
      rfl
  | poll =>
      simp only [step] at hstep
      split at hstep
      next hworker =>
        cases hstep
        have hsame : (ring.withHeadTable headTable).worker = .poll :=
          hworker
        rw [step, if_pos hsame]
        unfold poll
        by_cases hempty : ring.cursorEntry.rstatus = .empty
        · have hsame : (ring.withHeadTable headTable).cursorEntry.rstatus =
              .empty := hempty
          rw [if_pos hempty, if_pos hsame]
        · have hsame : (ring.withHeadTable headTable).cursorEntry.rstatus ≠
              .empty := hempty
          rw [if_neg hempty, if_neg hsame]
          rfl
      next => simp at hstep
  | loadTable =>
      rcases step_loadTable hstep with
        ⟨hworker, rfl⟩ | ⟨tailEntry, hworker, rfl⟩
      · simp only [step, withHeadTable, hworker]
      · simp only [step, withHeadTable, hworker]
        rfl
  | loadEntry =>
      rcases step_loadEntry hstep with
        ⟨hworker, rfl⟩ | ⟨tailTable, hworker, rfl⟩
      · simp only [step, withHeadTable, hworker]
      · simp only [step, withHeadTable, hworker]
        rfl
  | execute =>
      obtain ⟨hworker, hsubmitted, rfl⟩ := step_execute hstep
      have hguard : (ring.withHeadTable headTable).worker = .drain ∧
          (ring.withHeadTable headTable).submitted ≠ 0 :=
        ⟨hworker, hsubmitted⟩
      rw [step, if_pos hguard]
      rfl

/-- At the end of a batch only the producer moves, and leaves the worker and
the head alone. -/
theorem step_of_drained (hbeside : BesideHead action)
    (hworker : ring.worker = .drain) (hsubmitted : ring.submitted = 0)
    (hstep : ring.step cfg action = some next) :
    next.worker = .drain ∧ next.submitted = 0 ∧
      next.table.headTable = ring.table.headTable ∧ next.i = ring.i := by
  cases action with
  | advance => exact absurd rfl hbeside.1
  | publish => exact absurd rfl hbeside.2
  | write call =>
      obtain ⟨_, rfl⟩ := step_write hstep
      exact ⟨hworker, hsubmitted, rfl, rfl⟩
  | storeTable =>
      obtain ⟨i, j, _, rfl⟩ := step_storeTable hstep
      exact ⟨hworker, hsubmitted, rfl, rfl⟩
  | storeBusy =>
      obtain ⟨i, j, _, rfl⟩ := step_storeBusy hstep
      exact ⟨hworker, hsubmitted, rfl, rfl⟩
  | poll => simp [step, hworker] at hstep
  | loadTable => simp [step, hworker] at hstep
  | loadEntry => simp [step, hworker] at hstep
  | execute => simp [step, hsubmitted] at hstep

/-- While a call stands behind its spin, the other steps leave the index words
alone. -/
theorem step_of_written (hbeside : BesideHead action) {i j : ℕ}
    {call : SysCall} (hwritten : next.producer = .written i j call)
    (hold : ∀ call, action ≠ .write call)
    (hstep : ring.step cfg action = some next) :
    next.producer = ring.producer ∧ next.written = ring.written ∧
      next.table.tail = ring.table.tail ∧
      next.table.head = ring.table.head ∧
      ring.executed.length ≤ next.executed.length := by
  cases action with
  | advance => exact absurd rfl hbeside.1
  | publish => exact absurd rfl hbeside.2
  | write call => exact absurd rfl (hold call)
  | storeTable =>
      obtain ⟨i, j, _, rfl⟩ := step_storeTable hstep
      simp [storeTable] at hwritten
  | storeBusy =>
      obtain ⟨i, j, _, rfl⟩ := step_storeBusy hstep
      simp [storeBusy] at hwritten
  | poll =>
      rcases step_poll hstep with rfl | rfl
      · exact ⟨rfl, rfl, rfl, rfl, le_rfl⟩
      · exact ⟨rfl, rfl, rfl, rfl, le_rfl⟩
  | loadTable =>
      rcases step_loadTable hstep with ⟨_, rfl⟩ | ⟨_, _, rfl⟩
      · exact ⟨rfl, rfl, rfl, rfl, le_rfl⟩
      · exact ⟨rfl, rfl, rfl, rfl, le_rfl⟩
  | loadEntry =>
      rcases step_loadEntry hstep with ⟨_, rfl⟩ | ⟨_, _, rfl⟩
      · exact ⟨rfl, rfl, rfl, rfl, le_rfl⟩
      · exact ⟨rfl, rfl, rfl, rfl, le_rfl⟩
  | execute =>
      obtain ⟨_, _, rfl⟩ := step_execute hstep
      refine ⟨rfl, rfl, rfl, rfl, ?_⟩
      simp [execute]

/-! ## The spin of a whole head -/

theorem nextTail_inside {table : EscaTable}
    (hinside : table.tailEntry ≠ cfg.maxTableEntry - 1) :
    (table.updateIndex cfg).tail =
      (table.tailTable, table.tailEntry + 1) := by
  rw [EscaTable.updateIndex_tail]
  exact successor_of_not_last hinside

/-- A tail that does not reach the head has left the spin. -/
theorem Sound.not_spinsFull (hsound : ring.Sound cfg)
    (hsafe : (ring.table.updateIndex cfg).tail ≠ ring.table.head) :
    ¬ ring.table.SpinsFull := by
  rintro ⟨hentry, htable⟩
  by_cases hlast : ring.table.tailEntry = cfg.maxTableEntry - 1
  · obtain ⟨position, hhead, _, _⟩ := hsound.published
    have hlt : ring.table.head.2 < cfg.maxTableEntry := by
      rw [hhead]
      exact slotAt_snd_lt cfg.entry_pos position
    change ring.table.headEntry < _ at hlt
    omega
  · apply hsafe
    rw [nextTail_inside hlast]
    exact Prod.ext htable hentry

end TornRing

/-! ## A ring of single accesses -/

/-- As in `HeadRing`, `spin` is the control point of the spin, and `replaced`
is the table word of the head that the worker has already overwritten. -/
structure WordRing where
  ring : TornRing
  spin : SpinPc
  replaced : Option ℕ

inductive WordAction
  | write (call : SysCall)
  | loadHeadEntry
  | loadHeadTable
  | storeTailEntry
  | storeTailTable
  | storeBusy
  | poll
  | loadTailTable
  | loadTailEntry
  | execute
  | storeHeadTable
  | storeHeadEntry
  deriving DecidableEq

/-- The step of a ring whose head is loaded and stored as a whole. -/
def WordAction.whole : WordAction → Option TornAction
  | .write call => some (.write call)
  | .loadHeadEntry => none
  | .loadHeadTable => none
  | .storeTailEntry => some .advance
  | .storeTailTable => some .storeTable
  | .storeBusy => some .storeBusy
  | .poll => some .poll
  | .loadTailTable => some .loadTable
  | .loadTailEntry => some .loadEntry
  | .execute => some .execute
  | .storeHeadTable => none
  | .storeHeadEntry => some .publish

namespace WordRing

def register (cfg : TableConfig) (memory : ℕ → ℕ → TableEntry) :
    WordRing where
  ring := TornRing.register cfg memory
  spin := .loadEntry
  replaced := none

def loadHeadEntry (state : WordRing) : WordRing :=
  { state with
    spin :=
      if state.ring.table.tailEntry + 1 = state.ring.table.headEntry
      then .loadTable else .left }

def loadHeadTable (state : WordRing) : WordRing :=
  { state with
    spin :=
      if state.ring.table.tailTable = state.ring.table.headTable
      then .loadEntry else .left }

def storeHeadTable (state : WordRing) : WordRing :=
  { state with
    ring := state.ring.withHeadTable state.ring.i
    replaced := some state.ring.table.headTable }

def storeHeadEntry (state : WordRing) : WordRing :=
  { state with
    ring :=
      { state.ring with
        table := { state.ring.table with headEntry := state.ring.j }
        worker := .poll }
    replaced := none }

/-- An access beside the head. -/
def onRing (cfg : TableConfig) (state : WordRing) (spin : SpinPc)
    (action : TornAction) : Option WordRing :=
  match state.ring.step cfg action with
  | none => none
  | some ring => some { state with ring := ring, spin := spin }

def step (cfg : TableConfig) (state : WordRing) :
    WordAction → Option WordRing
  | .write call => state.onRing cfg .loadEntry (.write call)
  | .loadHeadEntry =>
      match state.ring.producer, state.spin with
      | .written _ _ _, .loadEntry => some state.loadHeadEntry
      | _, _ => none
  | .loadHeadTable =>
      match state.ring.producer, state.spin with
      | .written _ _ _, .loadTable => some state.loadHeadTable
      | _, _ => none
  | .storeTailEntry =>
      match state.ring.producer, state.spin with
      | .written i j _, .left =>
          some { state with ring := state.ring.advance cfg i j }
      | _, _ => none
  | .storeTailTable => state.onRing cfg state.spin .storeTable
  | .storeBusy => state.onRing cfg state.spin .storeBusy
  | .poll => state.onRing cfg state.spin .poll
  | .loadTailTable => state.onRing cfg state.spin .loadTable
  | .loadTailEntry => state.onRing cfg state.spin .loadEntry
  | .execute => state.onRing cfg state.spin .execute
  | .storeHeadTable =>
      if state.ring.worker = .drain ∧ state.ring.submitted = 0 ∧
          state.replaced = none then
        some state.storeHeadTable
      else none
  | .storeHeadEntry =>
      match state.replaced with
      | some _ => some state.storeHeadEntry
      | none => none

variable {cfg : TableConfig} {state next final : WordRing}
  {action : WordAction} {memory : ℕ → ℕ → TableEntry}
  {actions : List WordAction}

/-! ## Inversion of the step function -/

/-- What one step can do. -/
inductive Move (cfg : TableConfig) (state : WordRing) :
    WordAction → WordRing → Prop
  | write (call : SysCall) (ring : TornRing)
      (hstep : state.ring.step cfg (.write call) = some ring) :
      Move cfg state (.write call)
        { state with ring := ring, spin := .loadEntry }
  | beside {action : WordAction} (inner : TornAction) (ring : TornRing)
      (hwhole : action.whole = some inner)
      (hbeside : TornRing.BesideHead inner)
      (hother : ∀ call, inner ≠ .write call)
      (hstep : state.ring.step cfg inner = some ring) :
      Move cfg state action { state with ring := ring }
  | loadEntry : Move cfg state .loadHeadEntry state.loadHeadEntry
  | loadTable : Move cfg state .loadHeadTable state.loadHeadTable
  | advance (i j : ℕ) (call : SysCall)
      (hproducer : state.ring.producer = .written i j call)
      (hspin : state.spin = .left) :
      Move cfg state .storeTailEntry
        { state with ring := state.ring.advance cfg i j }
  | storeTable (hworker : state.ring.worker = .drain)
      (hsubmitted : state.ring.submitted = 0)
      (hreplaced : state.replaced = none) :
      Move cfg state .storeHeadTable state.storeHeadTable
  | storeEntry (previous : ℕ)
      (hreplaced : state.replaced = some previous) :
      Move cfg state .storeHeadEntry state.storeHeadEntry

theorem onRing_eq_some {spin : SpinPc} {inner : TornAction}
    (hstep : state.onRing cfg spin inner = some next) :
    ∃ ring, state.ring.step cfg inner = some ring ∧
      next = { state with ring := ring, spin := spin } := by
  unfold onRing at hstep
  split at hstep
  next => simp at hstep
  next ring hring =>
    cases hstep
    exact ⟨ring, hring, rfl⟩

theorem move_of_onRing {inner : TornAction}
    (hwhole : action.whole = some inner)
    (hbeside : TornRing.BesideHead inner)
    (hother : ∀ call, inner ≠ .write call)
    (hstep : state.onRing cfg state.spin inner = some next) :
    Move cfg state action next := by
  obtain ⟨ring, hring, rfl⟩ := onRing_eq_some hstep
  exact .beside inner ring hwhole hbeside hother hring

theorem step_move (hstep : state.step cfg action = some next) :
    Move cfg state action next := by
  cases action with
  | write call =>
      obtain ⟨ring, hring, rfl⟩ := onRing_eq_some hstep
      exact .write call ring hring
  | loadHeadEntry =>
      simp only [step] at hstep
      split at hstep
      next =>
        cases hstep
        exact .loadEntry
      next => simp at hstep
  | loadHeadTable =>
      simp only [step] at hstep
      split at hstep
      next =>
        cases hstep
        exact .loadTable
      next => simp at hstep
  | storeTailEntry =>
      simp only [step] at hstep
      split at hstep
      next i j call hproducer hspin =>
        cases hstep
        exact .advance i j call hproducer hspin
      next => simp at hstep
  | storeHeadTable =>
      simp only [step] at hstep
      split at hstep
      next hguard =>
        cases hstep
        exact .storeTable hguard.1 hguard.2.1 hguard.2.2
      next => simp at hstep
  | storeHeadEntry =>
      simp only [step] at hstep
      split at hstep
      next previous hreplaced =>
        cases hstep
        exact .storeEntry previous hreplaced
      next => simp at hstep
  | _ =>
      refine move_of_onRing rfl ⟨?_, ?_⟩ ?_ hstep
      all_goals simp

/-! ## The last complete head -/

def settled (state : WordRing) : TornRing :=
  match state.replaced with
  | none => state.ring
  | some previous => state.ring.withHeadTable previous

/-- A tail that leaves its table, or moves between the two head stores of the
worker, does not reach the last complete head. -/
def HeadClear (cfg : TableConfig) (state : WordRing)
    (action : WordAction) : Prop :=
  action = .storeTailEntry →
    state.ring.table.tailEntry = cfg.maxTableEntry - 1 ∨
        state.replaced ≠ none →
      (state.ring.table.updateIndex cfg).tail ≠ state.settled.table.head

instance (cfg : TableConfig) (state : WordRing) (action : WordAction) :
    Decidable (state.HeadClear cfg action) :=
  inferInstanceAs (Decidable (_ → _ ∨ _ → _))

def SnapshotClear (cfg : TableConfig) (state : WordRing)
    (action : WordAction) : Prop :=
  ∀ inner ∈ action.whole, state.ring.SnapshotClear cfg inner

instance (cfg : TableConfig) (state : WordRing) (action : WordAction) :
    Decidable (state.SnapshotClear cfg action) :=
  inferInstanceAs (Decidable (∀ inner ∈ action.whole, _))

theorem settled_of_none (hreplaced : state.replaced = none) :
    state.settled = state.ring := by
  simp [settled, hreplaced]

theorem settled_of_some {previous : ℕ}
    (hreplaced : state.replaced = some previous) :
    state.settled = state.ring.withHeadTable previous := by
  simp [settled, hreplaced]

theorem settled_eq (state : WordRing) :
    ∃ headTable, state.settled = state.ring.withHeadTable headTable := by
  cases hreplaced : state.replaced with
  | none => exact ⟨_, settled_of_none hreplaced⟩
  | some previous => exact ⟨previous, settled_of_some hreplaced⟩

/-- Everything but the table word of the head is as in the ring itself. -/
theorem settled_beside (state : WordRing) :
    state.settled.producer = state.ring.producer ∧
      state.settled.worker = state.ring.worker ∧
      state.settled.submitted = state.ring.submitted ∧
      state.settled.stores = state.ring.stores ∧
      state.settled.written = state.ring.written ∧
      state.settled.executed = state.ring.executed ∧
      state.settled.cursor = state.ring.cursor ∧
      state.settled.cursorEntry = state.ring.cursorEntry := by
  obtain ⟨headTable, hequal⟩ := state.settled_eq
  rw [hequal]
  exact ⟨rfl, rfl, rfl, rfl, rfl, rfl, rfl, rfl⟩

theorem settled_table (state : WordRing) :
    state.settled.table.tailTable = state.ring.table.tailTable ∧
      state.settled.table.tailEntry = state.ring.table.tailEntry ∧
      state.settled.table.headEntry = state.ring.table.headEntry := by
  obtain ⟨headTable, hequal⟩ := state.settled_eq
  rw [hequal]
  exact ⟨rfl, rfl, rfl⟩

theorem settled_nextTail (state : WordRing) :
    (state.settled.table.updateIndex cfg).tail =
      (state.ring.table.updateIndex cfg).tail := by
  rw [EscaTable.updateIndex_tail, EscaTable.updateIndex_tail]
  obtain ⟨htable, hentry, _⟩ := state.settled_table
  unfold EscaTable.tail
  rw [htable, hentry]

theorem settled_snapshotClear {inner : TornAction}
    (hclear : state.ring.SnapshotClear cfg inner) :
    state.settled.SnapshotClear cfg inner := by
  obtain ⟨headTable, hequal⟩ := state.settled_eq
  rw [hequal]
  exact hclear

theorem settled_step {inner : TornAction} {ring : TornRing}
    {spin : SpinPc} (hbeside : TornRing.BesideHead inner)
    (hstep : state.ring.step cfg inner = some ring) :
    state.settled.step cfg inner =
      some (settled { state with ring := ring, spin := spin }) := by
  cases hreplaced : state.replaced with
  | none =>
      rw [settled_of_none hreplaced]
      exact hstep
  | some previous =>
      rw [settled_of_some hreplaced]
      exact TornRing.step_withHeadTable hbeside previous hstep

theorem settled_advance (i j : ℕ) :
    settled { state with ring := state.ring.advance cfg i j } =
      state.settled.advance cfg i j := by
  cases hreplaced : state.replaced with
  | none =>
      rw [settled_of_none hreplaced]
      rfl
  | some previous =>
      rw [settled_of_some hreplaced]
      unfold TornRing.advance
      by_cases hlast :
          state.ring.table.tailEntry = cfg.maxTableEntry - 1
      · have hsame : (state.ring.withHeadTable previous).table.tailEntry =
            cfg.maxTableEntry - 1 := hlast
        rw [if_pos hlast, if_pos hsame]
        rfl
      · have hsame : (state.ring.withHeadTable previous).table.tailEntry ≠
            cfg.maxTableEntry - 1 := hlast
        rw [if_neg hlast, if_neg hsame]
        rfl

/-! ## Every access is one of a whole head -/

/-- A call that has left its spin inside a table does not reach the head while
it is whole, nor the one that the worker is about to publish. -/
def LeavesRoom (cfg : TableConfig) (state : WordRing) : Prop :=
  ∀ i j call, state.ring.producer = .written i j call →
    state.spin = .left →
    state.ring.table.tailEntry ≠ cfg.maxTableEntry - 1 →
      state.ring.stores + 1 <
          state.ring.executed.length + cfg.capacity ∧
        (state.replaced = none →
          (state.ring.table.updateIndex cfg).tail ≠
            state.ring.table.head)

structure Sound (cfg : TableConfig) (state : WordRing) : Prop where
  torn : state.settled.Sound cfg
  marked : state.settled.Marked cfg
  storing : ∀ previous, state.replaced = some previous →
    state.ring.worker = .drain ∧ state.ring.submitted = 0 ∧
      state.ring.table.headTable = state.ring.i
  room : state.LeavesRoom cfg

theorem register_sound (cfg : TableConfig)
    (memory : ℕ → ℕ → TableEntry) : (register cfg memory).Sound cfg where
  torn := TornRing.register_sound cfg memory
  marked := TornRing.register_marked cfg memory
  storing := by simp [register]
  room := by simp [LeavesRoom, register, TornRing.register]

namespace Sound

theorem nextTail_ne_head (hsound : state.Sound cfg) {i j : ℕ}
    {call : SysCall} (hproducer : state.ring.producer = .written i j call)
    (hspin : state.spin = .left)
    (hclear : state.HeadClear cfg .storeTailEntry) :
    (state.settled.table.updateIndex cfg).tail ≠
      state.settled.table.head := by
  by_cases hopen : state.ring.table.tailEntry = cfg.maxTableEntry - 1 ∨
      state.replaced ≠ none
  · rw [settled_nextTail]
    exact hclear rfl hopen
  · rw [not_or, not_ne_iff] at hopen
    rw [settled_of_none hopen.2]
    exact (hsound.room i j call hproducer hspin hopen.1).2 hopen.2

theorem answers (hsound : state.Sound cfg)
    (hhead : state.HeadClear cfg action)
    (hsnapshot : state.SnapshotClear cfg action)
    (hmove : Move cfg state action next) :
    Transition.Answers (TornRing.step cfg)
      (fun ring inner => ring.NoOverrun cfg inner ∧
        ring.SnapshotClear cfg inner)
      state.settled action.whole next.settled := by
  cases hmove with
  | write call ring hstep =>
      have hclear := settled_snapshotClear (hsnapshot _ rfl)
      exact ⟨⟨by simp [TornRing.NoOverrun], hclear⟩,
        settled_step ⟨by simp, by simp⟩ hstep⟩
  | beside inner ring hwhole hbeside _ hstep =>
      have hclear := settled_snapshotClear (hsnapshot inner hwhole)
      rw [hwhole]
      exact ⟨⟨fun hadvance => absurd hadvance hbeside.1, hclear⟩,
        settled_step hbeside hstep⟩
  | loadEntry => exact rfl
  | loadTable => exact rfl
  | advance i j call hproducer hspin =>
      have hsafe := hsound.nextTail_ne_head hproducer hspin hhead
      have hclear := settled_snapshotClear (hsnapshot _ rfl)
      refine ⟨⟨fun _ => hsafe, hclear⟩, ?_⟩
      have hsame : state.settled.producer = .written i j call :=
        state.settled_beside.1.trans hproducer
      rw [settled_advance]
      simp only [TornRing.step, hsame]
      rw [if_neg (hsound.torn.not_spinsFull hsafe)]
  | storeTable _ _ hreplaced =>
      change _ = state.settled
      rw [settled_of_none hreplaced]
      rfl
  | storeEntry previous hreplaced =>
      obtain ⟨hworker, hsubmitted, htable⟩ :=
        hsound.storing previous hreplaced
      have hclear := settled_snapshotClear (hsnapshot _ rfl)
      refine ⟨⟨by simp [TornRing.NoOverrun], hclear⟩, ?_⟩
      obtain ⟨_, hsameWorker, hsameSubmitted, _⟩ := state.settled_beside
      rw [TornRing.step, if_pos ⟨hsameWorker.trans hworker,
        hsameSubmitted.trans hsubmitted⟩, settled_of_some hreplaced]
      -- The table word of the new head is stored already.
      simp only [settled, storeHeadEntry, TornRing.publish,
        RingBase.publish, TornRing.withHeadTable, htable]

theorem storing_afterMove (hsound : state.Sound cfg)
    (hmove : Move cfg state action next) {previous : ℕ}
    (hnext : next.replaced = some previous) :
    next.ring.worker = .drain ∧ next.ring.submitted = 0 ∧
      next.ring.table.headTable = next.ring.i := by
  cases hmove with
  | write call ring hstep =>
      obtain ⟨hworker, hsubmitted, htable⟩ :=
        hsound.storing previous hnext
      obtain ⟨hlater, hcount, hsame, hcursor⟩ :=
        TornRing.step_of_drained ⟨by simp, by simp⟩ hworker hsubmitted
          hstep
      exact ⟨hlater, hcount, hsame.trans (htable.trans hcursor.symm)⟩
  | beside inner ring _ hbeside _ hstep =>
      obtain ⟨hworker, hsubmitted, htable⟩ :=
        hsound.storing previous hnext
      obtain ⟨hlater, hcount, hsame, hcursor⟩ :=
        TornRing.step_of_drained hbeside hworker hsubmitted hstep
      exact ⟨hlater, hcount, hsame.trans (htable.trans hcursor.symm)⟩
  | loadEntry => exact hsound.storing previous hnext
  | loadTable => exact hsound.storing previous hnext
  | advance i j call _ _ =>
      obtain ⟨hworker, hsubmitted, htable⟩ :=
        hsound.storing previous hnext
      unfold TornRing.advance
      split
      next => exact ⟨hworker, hsubmitted, htable⟩
      next => exact ⟨hworker, hsubmitted, htable⟩
  | storeTable hworker hsubmitted _ =>
      exact ⟨hworker, hsubmitted, rfl⟩
  | storeEntry _ _ => simp [storeHeadEntry] at hnext

/-- A head that the tail does not reach leaves room behind the cursor. -/
theorem room_of_ne (hsound : state.Sound cfg) {i j : ℕ} {call : SysCall}
    (hproducer : state.ring.producer = .written i j call)
    (hne : (state.settled.table.updateIndex cfg).tail ≠
      state.settled.table.head) :
    state.ring.stores + 1 < state.ring.executed.length + cfg.capacity := by
  obtain ⟨hsame, _, _, hstores, _, hexecuted, _⟩ := state.settled_beside
  have hcrossing : state.settled.midCrossing = false := by
    simp [TornRing.midCrossing, hsame, hproducer]
  obtain ⟨position, _, hle, hlap⟩ :=
    hsound.torn.published_of_noOverrun hcrossing hne
  rw [hexecuted] at hle
  rw [hstores] at hlap
  omega

/-- While the ring is full but for one entry the head stands at the cursor,
and so does the table word of the next one. -/
theorem headTable_of_full (hsound : state.Sound cfg) {i j : ℕ}
    {call : SysCall} (hproducer : state.ring.producer = .written i j call)
    (hinside : state.ring.table.tailEntry ≠ cfg.maxTableEntry - 1)
    {previous : ℕ} (hreplaced : state.replaced = some previous)
    (hfull : state.ring.executed.length + cfg.capacity ≤
      state.ring.stores + 1) :
    state.ring.table.tailTable = state.ring.table.headTable := by
  obtain ⟨hsame, _, _, hstores, _, hexecuted, hcursor, _⟩ :=
    state.settled_beside
  have hcrossing : state.settled.midCrossing = false := by
    simp [TornRing.midCrossing, hsame, hproducer]
  have hlap := hsound.torn.stores_lt
  rw [hstores, hexecuted] at hlap
  have hposition : state.ring.stores + 1 =
      state.ring.executed.length + cfg.capacity := by omega
  have hnext : (state.ring.table.tailTable,
      state.ring.table.tailEntry + 1) = state.ring.cursor := by
    rw [← TornRing.nextTail_inside hinside, ← settled_nextTail,
      EscaTable.updateIndex_tail_of_slotAt
        (hsound.torn.tail_of_clear hcrossing), ← hcursor,
      hsound.torn.cursor_eq, hstores, hexecuted, hposition,
      cfg.slotAt_add_capacity]
  have htable := (hsound.storing previous hreplaced).2.2
  rw [htable]
  exact congrArg Prod.fst hnext

theorem room_afterLoadEntry (hsound : state.Sound cfg) :
    state.loadHeadEntry.LeavesRoom cfg := by
  intro i j call hproducer hspin hinside
  have hmismatch : state.ring.table.tailEntry + 1 ≠
      state.ring.table.headEntry := by
    intro hmatch
    simp [loadHeadEntry, hmatch] at hspin
  change state.ring.table.tailEntry ≠ _ at hinside
  have hne : (state.settled.table.updateIndex cfg).tail ≠
      state.settled.table.head := by
    rw [settled_nextTail, TornRing.nextTail_inside hinside]
    intro hhead
    apply hmismatch
    rw [← state.settled_table.2.2]
    exact congrArg Prod.snd hhead
  refine ⟨hsound.room_of_ne hproducer hne, ?_⟩
  intro hreplaced
  have hwhole : state.replaced = none := hreplaced
  rw [settled_of_none hwhole] at hne
  exact hne

theorem room_afterLoadTable (hsound : state.Sound cfg) :
    state.loadHeadTable.LeavesRoom cfg := by
  intro i j call hproducer hspin hinside
  have hmismatch : state.ring.table.tailTable ≠
      state.ring.table.headTable := by
    intro hmatch
    simp [loadHeadTable, hmatch] at hspin
  change state.ring.table.tailEntry ≠ _ at hinside
  have hne : (state.ring.table.updateIndex cfg).tail ≠
      state.ring.table.head := by
    rw [TornRing.nextTail_inside hinside]
    intro hhead
    exact hmismatch (congrArg Prod.fst hhead)
  refine ⟨?_, fun _ => hne⟩
  cases hreplaced : state.replaced with
  | none =>
      rw [← settled_of_none hreplaced] at hne
      exact hsound.room_of_ne hproducer hne
  | some previous =>
      by_contra hfull
      exact hmismatch (hsound.headTable_of_full hproducer hinside
        hreplaced (Nat.not_lt.mp hfull))

theorem room_afterStoreEntry (hsound : state.Sound cfg) {previous : ℕ}
    (hreplaced : state.replaced = some previous) :
    state.storeHeadEntry.LeavesRoom cfg := by
  intro i j call hproducer hspin hinside
  have hroom := (hsound.room i j call hproducer hspin hinside).1
  refine ⟨hroom, ?_⟩
  intro _
  obtain ⟨hsame, _, _, hstores, _, hexecuted, hcursor, _⟩ :=
    state.settled_beside
  have hcrossing : state.settled.midCrossing = false := by
    rw [TornRing.midCrossing, hsame]
    change state.ring.producer = _ at hproducer
    rw [hproducer]
  have hnext : (state.ring.table.updateIndex cfg).tail =
      cfg.slotAt (state.ring.stores + 1) := by
    rw [← settled_nextTail, EscaTable.updateIndex_tail_of_slotAt
      (hsound.torn.tail_of_clear hcrossing), hstores]
  have hhead : state.storeHeadEntry.ring.table.head =
      cfg.slotAt state.ring.executed.length := by
    rw [← hexecuted, ← hsound.torn.cursor_eq, hcursor]
    exact Prod.ext (hsound.storing previous hreplaced).2.2 rfl
  have hle := hsound.torn.executed_le
  rw [hexecuted, hstores] at hle
  rw [hhead]
  have hsameTail : (state.storeHeadEntry.ring.table.updateIndex
      cfg).tail = (state.ring.table.updateIndex cfg).tail := by
    rw [EscaTable.updateIndex_tail, EscaTable.updateIndex_tail]
    rfl
  rw [hsameTail, hnext]
  exact (cfg.slotAt_ne (by omega) hroom).symm

theorem room_afterMove (hsound : state.Sound cfg)
    (hmove : Move cfg state action next) : next.LeavesRoom cfg := by
  cases hmove with
  | write call ring hstep =>
      intro i j other _ hspin
      contradiction
  | beside inner ring _ hbeside hother hstep =>
      intro i j call hwritten hspin hinside
      obtain ⟨hproducer, hlog, htail, hhead, hexecuted⟩ :=
        TornRing.step_of_written hbeside hwritten hother hstep
      have hstores : ring.stores = state.ring.stores := by
        unfold TornRing.stores
        rw [hproducer, hlog]
      have hentry : ring.table.tailEntry = state.ring.table.tailEntry :=
        congrArg Prod.snd htail
      change ring.table.tailEntry ≠ _ at hinside
      rw [hentry] at hinside
      obtain ⟨hroom, hne⟩ := hsound.room i j call
        (hproducer.symm.trans hwritten) hspin hinside
      refine ⟨?_, ?_⟩
      · change ring.stores + 1 < ring.executed.length + _
        rw [hstores]
        exact hroom.trans_le (Nat.add_le_add_right hexecuted _)
      · intro hreplaced
        change (ring.table.updateIndex cfg).tail ≠ ring.table.head
        rw [EscaTable.updateIndex_tail, htail, hhead,
          ← EscaTable.updateIndex_tail]
        exact hne hreplaced
  | loadEntry => exact hsound.room_afterLoadEntry
  | loadTable => exact hsound.room_afterLoadTable
  | advance i j call _ _ =>
      intro i' j' other hwritten
      unfold TornRing.advance at hwritten
      split at hwritten
      next => simp at hwritten
      next => simp at hwritten
  | storeTable _ _ _ =>
      intro i j call hproducer hspin hinside
      refine ⟨(hsound.room i j call hproducer hspin hinside).1, ?_⟩
      simp [storeHeadTable]
  | storeEntry previous hreplaced =>
      exact hsound.room_afterStoreEntry hreplaced

theorem afterMove (hsound : state.Sound cfg)
    (hhead : state.HeadClear cfg action)
    (hsnapshot : state.SnapshotClear cfg action)
    (hmove : Move cfg state action next) : next.Sound cfg := by
  have hanswers := hsound.answers hhead hsnapshot hmove
  have hring : next.settled.Sound cfg ∧ next.settled.Marked cfg := by
    cases hwhole : action.whole with
    | none =>
        rw [hwhole] at hanswers
        rw [show next.settled = state.settled from hanswers]
        exact ⟨hsound.torn, hsound.marked⟩
    | some inner =>
        rw [hwhole] at hanswers
        obtain ⟨⟨hsafe, hclear⟩, hstep⟩ := hanswers
        exact ⟨hsound.torn.afterStep hsafe hclear hstep,
          hsound.marked.afterStep hsound.torn hstep⟩
  exact ⟨hring.1, hring.2,
    fun _ hnext => hsound.storing_afterMove hmove hnext,
    hsound.room_afterMove hmove⟩

end Sound

theorem refines_step (cfg : TableConfig) (state : WordRing)
    (action : WordAction) (next : WordRing) (hsound : state.Sound cfg)
    (hclear : state.HeadClear cfg action ∧
      state.SnapshotClear cfg action)
    (hstep : state.step cfg action = some next) :
    next.Sound cfg ∧
      Transition.Answers (TornRing.step cfg)
        (fun ring inner => ring.NoOverrun cfg inner ∧
          ring.SnapshotClear cfg inner)
        state.settled action.whole next.settled := by
  have hmove := step_move hstep
  exact ⟨hsound.afterMove hclear.1 hclear.2 hmove,
    hsound.answers hclear.1 hclear.2 hmove⟩

/-- Unless a step falls into one of the three windows, a ring of single
accesses is one with a whole head that is never overrun, and a slot is filled
only once it is free.  If the arrays share their entries, the calls are
executed in order, and between two calls an empty slot at the cursor means
that all of them are executed. -/
theorem words_deliver_in_order
    (hrun : Transition.run (step cfg) (register cfg memory) actions =
      some final)
    (hclear : Transition.StepsMeet (step cfg)
      (fun state action => state.HeadClear cfg action ∧
        state.SnapshotClear cfg action)
      (register cfg memory) actions) :
    (Transition.run (TornRing.step cfg) (TornRing.register cfg memory)
        (actions.filterMap WordAction.whole) = some final.settled ∧
      Transition.StepsMeet (TornRing.step cfg)
        (fun ring inner => ring.NoOverrun cfg inner ∧
          ring.SnapshotClear cfg inner)
        (TornRing.register cfg memory)
        (actions.filterMap WordAction.whole)) ∧
      final.ring.CountsOnlyWritten ∧
      final.ring.written.length ≤
        final.ring.executed.length + cfg.capacity ∧
      (cfg.SharesEntries →
        final.ring.executed <+:
            final.ring.written.map Submission.call ∧
          (final.ring.producer = .idle →
            final.ring.cursorEntry.rstatus = .empty →
              final.ring.executed =
                final.ring.written.map Submission.call)) := by
  have hsound : final.Sound cfg :=
    Transition.run_invariant
      (fun state action next hsound hboth hstep =>
        (refines_step cfg state action next hsound hboth hstep).1)
      (register_sound cfg memory) hrun hclear
  have hrefines := Transition.run_refines (refines_step cfg)
    (register_sound cfg memory) hrun hclear
  obtain ⟨hproducer, hworker, hsubmitted, hstores, hwritten, hexecuted, _,
    hcursor⟩ := final.settled_beside
  refine ⟨hrefines, ?_, ?_, ?_⟩
  · have hcounts := hsound.torn.countsOnlyWritten
    unfold TornRing.CountsOnlyWritten at *
    rwa [hworker, hsubmitted, hwritten, hexecuted] at hcounts
  · have hlap := hsound.torn.stores_lt
    rw [hstores, hexecuted] at hlap
    have hnewest : final.ring.written.length ≤ final.ring.stores + 1 := by
      unfold TornRing.stores
      split <;> omega
    omega
  · intro hshares
    have hexecutes := hsound.torn.executed_prefix hshares
    rw [hexecuted, hwritten] at hexecutes
    refine ⟨hexecutes, ?_⟩
    intro hidle hempty
    have hall := hsound.marked.executed_all hsound.torn hshares
      (hproducer.trans hidle) (hcursor ▸ hempty)
    rwa [hexecuted, hwritten] at hall

/-- A wrapped call that the first load of its spin lets go. -/
def insideCall (fd : ℤ) : List WordAction :=
  [.write (closeCall fd), .loadHeadEntry, .storeTailEntry, .storeBusy]

/-- The sixty-third call is counted between the two loads of a snapshot, and
the next one crosses into the second table between the two head stores of that
batch. -/
def splitAccesses : List WordAction :=
  (List.range 62).flatMap (fun n => insideCall n) ++
    [.write (closeCall 62), .loadHeadEntry, .poll, .loadTailTable,
      .storeTailEntry, .loadTailEntry, .execute, .storeBusy] ++
    List.replicate 62 .execute ++
    [.write (closeCall 63), .loadHeadEntry, .storeHeadTable,
      .storeTailEntry, .storeTailTable, .storeHeadEntry, .storeBusy,
      .poll, .loadTailEntry, .loadTailTable, .execute]

theorem splitAccesses_deliver :
    ∃ final,
      Transition.run (step fullTables) (register fullTables blankMemory)
        splitAccesses = some final ∧
      final.ring.table.tail = (1, 0) ∧
      Transition.run (TornRing.step fullTables)
        (TornRing.register fullTables blankMemory)
        (splitAccesses.filterMap WordAction.whole) =
          some final.settled ∧
      final.ring.executed =
        (List.range 64).map (fun n => closeCall n) ∧
      final.ring.executed =
        final.ring.written.map Submission.call := by
  have hends :
      (Transition.run (step fullTables) (register fullTables blankMemory)
          splitAccesses).map
        (fun final => (final.ring.table.tail, final.ring.executed,
          final.ring.producer, final.ring.cursorEntry.rstatus)) =
      some ((1, 0), (List.range 64).map (fun n => closeCall n), .idle,
        .empty) := by decide +kernel
  obtain ⟨final, hrun, hfinal⟩ := Option.map_eq_some_iff.mp hends
  simp only [Prod.mk.injEq] at hfinal
  obtain ⟨htail, hexecuted, hidle, hempty⟩ := hfinal
  obtain ⟨hwhole, _, _, hdelivers⟩ :=
    words_deliver_in_order hrun (by decide +kernel)
  exact ⟨final, hrun, htail, hwhole.1, hexecuted,
    (hdelivers (Or.inl rfl)).2 hidle hempty⟩

end WordRing

end Saio
