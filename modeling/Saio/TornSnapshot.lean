import Saio.TornTail
import Mathlib.Tactic

/-!
# A snapshot that meets no crossing never counts too much

Positions are counted in stores of `tail_entry`: a wrapped call makes exactly
one.  Between the two stores of a crossing the entry word already belongs to
the next table while the table word does not.

Under `SnapshotClear` the table word loaded first still is the table of the
current position when the entry word is loaded, and an entry word loaded first
belongs to a position of that table which the tail had since the batch began.
Either way the pair of words is the slot of a position between the cursor and
the tail.  When the two arrays share their entries, the worker then finds in
every slot it counts what was written for it.
-/

namespace Saio

open CircularSlots

namespace TornRing

variable {cfg : TableConfig} {ring next final : TornRing}
  {memory : ℕ → ℕ → TableEntry} {actions : List TornAction}

/-- Number of stores made to `tail_entry`. -/
def stores (ring : TornRing) : ℕ :=
  match ring.producer with
  | .written _ _ _ => ring.written.length - 1
  | _ => ring.written.length

def TailTableAt (cfg : TableConfig) (ring : TornRing) : Prop :=
  match ring.producer with
  | .crossing _ _ =>
      ∃ previous,
        ring.stores = previous + 1 ∧
        previous % cfg.maxTableEntry = cfg.maxTableEntry - 1 ∧
        ring.table.tailTable =
          previous / cfg.maxTableEntry % cfg.maxTableLen
  | .written _ _ _ =>
      0 < ring.written.length ∧
        ring.table.tailTable =
          ring.stores / cfg.maxTableEntry % cfg.maxTableLen
  | _ =>
      ring.table.tailTable =
        ring.stores / cfg.maxTableEntry % cfg.maxTableLen

/-- What the word loaded first by a snapshot says about the tail. -/
def LoadedAt (cfg : TableConfig) (ring : TornRing) :
    TornWorkerPc → Prop
  | .haveTable tailTable =>
      tailTable = ring.stores / cfg.maxTableEntry % cfg.maxTableLen
  | .haveEntry tailEntry =>
      ∃ position,
        ring.executed.length ≤ position ∧ position ≤ ring.stores ∧
        tailEntry = position % cfg.maxTableEntry ∧
        position / cfg.maxTableEntry % cfg.maxTableLen =
          ring.stores / cfg.maxTableEntry % cfg.maxTableLen
  | _ => True

/-- What the worker finds in the entries. -/
structure Contents (cfg : TableConfig) (ring : TornRing) : Prop where
  delivered :
    ring.executed =
      (ring.written.take ring.executed.length).map Submission.call
  content : ∀ k submission,
    ring.written[k]? = some submission → ring.executed.length ≤ k →
      (ring.table.entryAt (cfg.slotAt k)).call = submission.call

structure Sound (cfg : TableConfig) (ring : TornRing) : Prop where
  entry_eq : ring.table.tailEntry = ring.stores % cfg.maxTableEntry
  table_eq : ring.TailTableAt cfg
  cursor_eq : ring.cursor = cfg.slotAt ring.executed.length
  executed_le : ring.executed.length ≤ ring.stores
  published : ∃ position,
    ring.table.head = cfg.slotAt position ∧
      position ≤ ring.executed.length ∧
      ring.stores < position + cfg.capacity
  batch : ring.worker = .drain →
    ∃ remaining : ℕ,
      ring.submitted = toShort remaining ∧
        ring.executed.length + remaining ≤ ring.stores
  loaded : ring.LoadedAt cfg ring.worker
  contents : cfg.SharesEntries → ring.Contents cfg

theorem register_sound
    (cfg : TableConfig) (memory : ℕ → ℕ → TableEntry) :
    (register cfg memory).Sound cfg where
  entry_eq := (Nat.zero_mod cfg.maxTableEntry).symm
  table_eq := by
    simp [TailTableAt, register, stores, RingBase.register]
  cursor_eq := cfg.slotAt_zero.symm
  executed_le := le_rfl
  published :=
    ⟨0, cfg.slotAt_zero.symm, le_rfl, Nat.lt_add_left 0 cfg.capacity_pos⟩
  batch := by simp [register]
  loaded := trivial
  contents := fun _ => { delivered := rfl, content := by simp [register] }

/-- Steps that leave the calls in the entries and the histories alone. -/
theorem Contents.of_sameCalls (hcontents : ring.Contents cfg)
    {moved : TornRing}
    (hcalls : ∀ slot,
      (moved.table.entryAt slot).call = (ring.table.entryAt slot).call)
    (hwritten : moved.written = ring.written)
    (hexecuted : moved.executed = ring.executed) :
    moved.Contents cfg := by
  constructor
  · rw [hexecuted, hwritten]
    exact hcontents.delivered
  · simp only [hcalls, hwritten, hexecuted]
    exact hcontents.content

namespace Sound

theorem stores_le (ring : TornRing) :
    ring.stores ≤ ring.written.length := by
  unfold stores
  cases ring.producer with
  | written i j call => exact Nat.sub_le _ _
  | idle => exact le_rfl
  | crossing i j => exact le_rfl
  | advanced i j => exact le_rfl

theorem stores_lt (hsound : ring.Sound cfg) :
    ring.stores < ring.executed.length + cfg.capacity := by
  obtain ⟨position, _, hle, hlap⟩ := hsound.published
  omega

theorem tailTable_of_clear (hsound : ring.Sound cfg)
    (hclear : cfg.maxTableLen = 1 ∨ ring.midCrossing = false) :
    ring.table.tailTable =
      ring.stores / cfg.maxTableEntry % cfg.maxTableLen := by
  have htable := hsound.table_eq
  unfold TailTableAt at htable
  cases hproducer : ring.producer with
  | idle =>
      rw [hproducer] at htable
      exact htable
  | written i j call =>
      rw [hproducer] at htable
      exact htable.2
  | advanced i j =>
      rw [hproducer] at htable
      exact htable
  | crossing i j =>
      rw [hproducer] at htable
      obtain ⟨previous, _, _, hvalue⟩ := htable
      rcases hclear with hone | hnot
      · rw [hvalue, hone, Nat.mod_one, Nat.mod_one]
      · simp [midCrossing, hproducer] at hnot

theorem tail_of_clear (hsound : ring.Sound cfg)
    (hclear : ring.midCrossing = false) :
    ring.table.tail = cfg.slotAt ring.stores :=
  Prod.ext (hsound.tailTable_of_clear (Or.inr hclear)) hsound.entry_eq

/-- The word loaded first stays good while the tail moves inside a table. -/
theorem loadedAt_of_sameTable (hsound : ring.Sound cfg)
    {moved : TornRing}
    (hworker : moved.worker = ring.worker)
    (hexecuted : moved.executed = ring.executed)
    (hstores : ring.stores ≤ moved.stores)
    (hsame :
      moved.stores / cfg.maxTableEntry % cfg.maxTableLen =
        ring.stores / cfg.maxTableEntry % cfg.maxTableLen) :
    moved.LoadedAt cfg moved.worker := by
  have hloaded := hsound.loaded
  rw [hworker]
  cases hpc : ring.worker with
  | poll => trivial
  | snapshot => trivial
  | drain => trivial
  | haveTable tailTable =>
      rw [hpc] at hloaded
      unfold LoadedAt at hloaded ⊢
      rw [hsame]
      exact hloaded
  | haveEntry tailEntry =>
      rw [hpc] at hloaded
      unfold LoadedAt at hloaded ⊢
      obtain ⟨position, hcursor, hle, hentry, htable⟩ := hloaded
      refine ⟨position, ?_, hle.trans hstores, hentry, ?_⟩
      · rw [hexecuted]
        exact hcursor
      · rw [hsame]
        exact htable

theorem loadedAt_of_not_mid
    {moved : TornRing} (hmid : moved.midSnapshot = false) :
    moved.LoadedAt cfg moved.worker := by
  unfold midSnapshot at hmid
  cases hpc : moved.worker with
  | poll => trivial
  | snapshot => trivial
  | drain => trivial
  | haveTable tailTable => simp [hpc] at hmid
  | haveEntry tailEntry => simp [hpc] at hmid

theorem contents_afterWrite (hsound : ring.Sound cfg)
    (hshares : cfg.SharesEntries) (hproducer : ring.producer = .idle)
    (call : SysCall) : (ring.write cfg call).Contents cfg := by
  have hcontents := hsound.contents hshares
  have hlength : ring.stores = ring.written.length := by
    simp [stores, hproducer]
  have htail := hsound.tail_of_clear (by simp [midCrossing, hproducer])
  rw [hlength] at htail
  have hle := hsound.executed_le
  have hlap := hsound.stores_lt
  constructor
  · change ring.executed =
      ((ring.written ++ [_]).take ring.executed.length).map _
    rw [List.take_append_of_le_length (by omega)]
    exact hcontents.delivered
  · intro k submission hwritten hcursor
    change ((ring.table.fillUser cfg ring.table.tail call).entryAt
      (cfg.slotAt k)).call = _
    rcases FifoChannel.get_append_cases hwritten with hold | ⟨rfl, rfl⟩
    · have hne : cfg.slotAt k ≠ cfg.userSlot ring.table.tail := by
        have hlt := (List.getElem?_eq_some_iff.mp hold).1
        rw [htail, hshares.userSlot_slotAt]
        change ring.executed.length ≤ k at hcursor
        exact cfg.slotAt_ne hlt (by omega)
      rw [EscaTable.fillUser_of_ne _ call hne]
      exact hcontents.content k submission hold hcursor
    · rw [htail, ← EscaTable.userEntryAt_slotAt hshares]
      exact EscaTable.fillUser_call_self cfg _ _ call

/-- A step of the producer that does not store `tail_entry`. -/
theorem of_sameStores (hsound : ring.Sound cfg) {moved : TornRing}
    (hstores : moved.stores = ring.stores)
    (hworker : moved.worker = ring.worker)
    (hcursor : moved.cursor = ring.cursor)
    (hsubmitted : moved.submitted = ring.submitted)
    (hexecuted : moved.executed = ring.executed)
    (hentry : moved.table.tailEntry = ring.table.tailEntry)
    (hhead : moved.table.head = ring.table.head)
    (htable : moved.TailTableAt cfg)
    (hcontents : cfg.SharesEntries → moved.Contents cfg) :
    moved.Sound cfg := by
  constructor
  · rw [hentry, hstores]
    exact hsound.entry_eq
  · exact htable
  · rw [hexecuted, hcursor]
    exact hsound.cursor_eq
  · rw [hexecuted, hstores]
    exact hsound.executed_le
  · rw [hexecuted, hstores, hhead]
    exact hsound.published
  · rw [hexecuted, hstores, hworker, hsubmitted]
    exact hsound.batch
  · exact hsound.loadedAt_of_sameTable hworker hexecuted
      (by rw [hstores]) (by rw [hstores])
  · exact hcontents

theorem afterWrite (hsound : ring.Sound cfg)
    (hproducer : ring.producer = .idle) (call : SysCall) :
    (ring.write cfg call).Sound cfg := by
  have hstores : (ring.write cfg call).stores = ring.stores := by
    simp [stores, write, hproducer]
  have htail := hsound.tail_of_clear (by simp [midCrossing, hproducer])
  refine hsound.of_sameStores hstores rfl rfl rfl rfl rfl rfl ?_ ?_
  · refine ⟨by simp [write], ?_⟩
    rw [hstores]
    exact congrArg Prod.fst htail
  · intro hshares
    exact hsound.contents_afterWrite hshares hproducer call

/-- Without overrun the published head leaves room for one more position. -/
theorem published_of_noOverrun (hsound : ring.Sound cfg)
    (hclear : ring.midCrossing = false)
    (hsafe : (ring.table.updateIndex cfg).tail ≠ ring.table.head) :
    ∃ position,
      ring.table.head = cfg.slotAt position ∧
        position ≤ ring.executed.length ∧
        ring.stores + 1 < position + cfg.capacity := by
  obtain ⟨position, hhead, hle, hlap⟩ := hsound.published
  refine ⟨position, hhead, hle, ?_⟩
  by_contra hfull
  have heq : ring.stores + 1 = position + cfg.capacity := by omega
  apply hsafe
  rw [EscaTable.updateIndex_tail_of_slotAt (hsound.tail_of_clear hclear),
    heq, hhead]
  exact cfg.slotAt_add_capacity position

/-- One more store of `tail_entry` moves the tail by one position. -/
theorem afterEntryStore (hsound : ring.Sound cfg)
    {tailEntry : ℕ} {producer : TornProducerPc} {moved : TornRing}
    (hmoved : moved =
      { ring with
        table := { ring.table with tailEntry := tailEntry }
        producer := producer })
    (hstores : moved.stores = ring.stores + 1)
    (hentry : tailEntry = (ring.stores + 1) % cfg.maxTableEntry)
    (htable : moved.TailTableAt cfg)
    (hpublished : ∃ position,
      ring.table.head = cfg.slotAt position ∧
        position ≤ ring.executed.length ∧
        ring.stores + 1 < position + cfg.capacity)
    (hloaded : moved.LoadedAt cfg moved.worker) :
    moved.Sound cfg := by
  have hle : ring.stores ≤ moved.stores := by omega
  subst hmoved
  constructor
  · rw [hstores]
    exact hentry
  · exact htable
  · exact hsound.cursor_eq
  · exact hsound.executed_le.trans hle
  · rw [hstores]
    exact hpublished
  · intro hdrain
    obtain ⟨remaining, hsubmitted, hbound⟩ := hsound.batch hdrain
    exact ⟨remaining, hsubmitted, hbound.trans hle⟩
  · exact hloaded
  · intro hshares
    exact (hsound.contents hshares).of_sameCalls (fun _ => rfl) rfl rfl

theorem stores_of_written (hsound : ring.Sound cfg)
    {i j : ℕ} {call : SysCall}
    (hproducer : ring.producer = .written i j call) :
    ring.stores + 1 = ring.written.length := by
  have htable := hsound.table_eq
  unfold TailTableAt at htable
  rw [hproducer] at htable
  have hpositive := htable.1
  simp only [stores, hproducer]
  omega

theorem afterAdvance (hsound : ring.Sound cfg)
    {i j : ℕ} {call : SysCall}
    (hproducer : ring.producer = .written i j call)
    (hsafe : (ring.table.updateIndex cfg).tail ≠ ring.table.head)
    (hclear : cfg.maxTableLen = 1 ∨
      (ring.table.tailEntry = cfg.maxTableEntry - 1 →
        ring.midSnapshot = false)) :
    (ring.advance cfg i j).Sound cfg := by
  have hcrossing : ring.midCrossing = false := by
    simp [midCrossing, hproducer]
  have htable := hsound.tailTable_of_clear (Or.inr hcrossing)
  have hpublished := hsound.published_of_noOverrun hcrossing hsafe
  have hlength := hsound.stores_of_written hproducer
  by_cases hlast : ring.table.tailEntry = cfg.maxTableEntry - 1
  · have hposition := hlast
    rw [hsound.entry_eq] at hposition
    rw [advance, if_pos hlast]
    refine hsound.afterEntryStore rfl hlength.symm
      (succ_mod_of_last cfg.entry_pos hposition).symm
      ⟨ring.stores, hlength.symm, hposition, htable⟩ hpublished ?_
    rcases hclear with hone | hmid
    · refine hsound.loadedAt_of_sameTable rfl rfl ?_ ?_
      · exact stores_le ring
      · rw [hone, Nat.mod_one, Nat.mod_one]
    · exact loadedAt_of_not_mid (hmid hlast)
  · have hposition := hlast
    rw [hsound.entry_eq] at hposition
    have hsame :=
      succ_div_of_not_last cfg.entry_pos hposition
    rw [advance, if_neg hlast]
    refine hsound.afterEntryStore rfl hlength.symm ?_ ?_ hpublished ?_
    · rw [succ_mod_of_not_last cfg.entry_pos hposition,
        ← hsound.entry_eq]
    · change ring.table.tailTable =
        ring.written.length / cfg.maxTableEntry % cfg.maxTableLen
      rw [← hlength, hsame]
      exact htable
    · refine hsound.loadedAt_of_sameTable rfl rfl ?_ ?_
      · exact stores_le ring
      · change ring.written.length / _ % _ = _
        rw [← hlength, hsame]

theorem afterStoreTable (hsound : ring.Sound cfg) {i j : ℕ}
    (hproducer : ring.producer = .crossing i j) :
    (ring.storeTable cfg i j).Sound cfg := by
  have hstores : (ring.storeTable cfg i j).stores = ring.stores := by
    simp [stores, storeTable, hproducer]
  have htable := hsound.table_eq
  unfold TailTableAt at htable
  rw [hproducer] at htable
  obtain ⟨previous, hprevious, hlast, hvalue⟩ := htable
  refine hsound.of_sameStores hstores rfl rfl rfl rfl rfl rfl ?_ ?_
  · change
      (if ring.table.tailTable = cfg.maxTableLen - 1 then 0
        else ring.table.tailTable + 1) =
        (ring.storeTable cfg i j).stores / cfg.maxTableEntry %
          cfg.maxTableLen
    rw [hstores, hprevious, succ_div_of_last cfg.entry_pos hlast,
      succ_mod_count cfg.len_pos, hvalue]
  · intro hshares
    exact (hsound.contents hshares).of_sameCalls (fun _ => rfl) rfl rfl

theorem afterStoreBusy (hsound : ring.Sound cfg) {i j : ℕ}
    (hproducer : ring.producer = .advanced i j) :
    (ring.storeBusy cfg i j).Sound cfg := by
  have hstores : (ring.storeBusy cfg i j).stores = ring.stores := by
    simp [stores, storeBusy, hproducer]
  refine hsound.of_sameStores hstores rfl rfl rfl rfl rfl rfl ?_ ?_
  · have htable :=
      hsound.tailTable_of_clear
        (Or.inr (by simp [midCrossing, hproducer]))
    change ring.table.tailTable =
      (ring.storeBusy cfg i j).stores / _ % _
    rw [hstores]
    exact htable
  · intro hshares
    exact (hsound.contents hshares).of_sameCalls
      (fun slot => EscaTable.markUser_call cfg _ _ slot) rfl rfl

/-- Moving the worker between its control points outside a batch. -/
theorem withWorker (hsound : ring.Sound cfg) {worker : TornWorkerPc}
    (hbatch : worker ≠ .drain) (hloaded : ring.LoadedAt cfg worker) :
    ({ ring with worker := worker } : TornRing).Sound cfg where
  entry_eq := hsound.entry_eq
  table_eq := hsound.table_eq
  cursor_eq := hsound.cursor_eq
  executed_le := hsound.executed_le
  published := hsound.published
  batch := fun hdrain => absurd hdrain hbatch
  loaded := by
    change ({ ring with worker := worker } : TornRing).LoadedAt
      cfg worker
    cases worker with
    | poll => trivial
    | snapshot => trivial
    | drain => trivial
    | haveTable tailTable => exact hloaded
    | haveEntry tailEntry => exact hloaded
  contents := fun hshares =>
    (hsound.contents hshares).of_sameCalls (fun _ => rfl) rfl rfl

/-- Two words that form the slot of a position between the cursor and the tail
make a batch that stays within the tail. -/
theorem takeBatch (hsound : ring.Sound cfg)
    {tailTable tailEntry position : ℕ}
    (hview : (tailTable, tailEntry) = cfg.slotAt position)
    (hcursor : ring.executed.length ≤ position)
    (htail : position ≤ ring.stores) :
    (ring.takeBatch cfg tailTable tailEntry).Sound cfg where
  entry_eq := hsound.entry_eq
  table_eq := hsound.table_eq
  cursor_eq := hsound.cursor_eq
  executed_le := hsound.executed_le
  published := hsound.published
  batch := by
    intro _
    have hlap := hsound.stores_lt
    refine ⟨position - ring.executed.length, ?_, ?_⟩
    · change toShort _ = toShort _
      rw [batchCount_of_slotAt hsound.cursor_eq hview hcursor
        (by omega)]
    · change ring.executed.length + (position - ring.executed.length) ≤
        ring.stores
      omega
  loaded := trivial
  contents := fun hshares =>
    (hsound.contents hshares).of_sameCalls (fun _ => rfl) rfl rfl

theorem contents_afterExecute (hsound : ring.Sound cfg)
    (hshares : cfg.SharesEntries)
    (hlt : ring.executed.length < ring.written.length) :
    (ring.execute cfg).Contents cfg := by
  have hcontents := hsound.contents hshares
  have hlength :
      (ring.execute cfg).executed.length =
        ring.executed.length + 1 := by
    simp [execute]
  constructor
  · rw [hlength]
    refine Submission.delivered_append hcontents.delivered hlt ?_
    intro submission hwritten
    rw [RingBase.cursorEntry, hsound.cursor_eq]
    exact hcontents.content _ _ hwritten le_rfl
  · intro k submission hwritten hcursor
    rw [hlength] at hcursor
    change ((ring.table.setStatus _ _).entryAt _).call = _
    rw [EscaTable.setStatus_call]
    exact hcontents.content k submission hwritten (by omega)

theorem afterExecute (hsound : ring.Sound cfg)
    (hworker : ring.worker = .drain) (hsubmitted : ring.submitted ≠ 0) :
    (ring.execute cfg).Sound cfg := by
  obtain ⟨count, hcount, hbound⟩ := hsound.batch hworker
  obtain ⟨remaining, rfl, hvalue⟩ := toShort_pred hcount hsubmitted
  have hstores : (ring.execute cfg).stores = ring.stores := rfl
  have hlength :
      (ring.execute cfg).executed.length =
        ring.executed.length + 1 := by
    simp [execute]
  have hle := stores_le ring
  constructor
  · exact hsound.entry_eq
  · exact hsound.table_eq
  · rw [hlength]
    exact advanceCursor_of_slotAt hsound.cursor_eq
  · rw [hlength, hstores]
    omega
  · obtain ⟨position, hhead, hposition, hlap⟩ := hsound.published
    refine ⟨position, hhead, ?_, hlap⟩
    rw [hlength]
    omega
  · intro _
    refine ⟨remaining, hvalue, ?_⟩
    rw [hlength, hstores]
    omega
  · change (ring.execute cfg).LoadedAt cfg ring.worker
    rw [hworker]
    trivial
  · intro hshares
    exact hsound.contents_afterExecute hshares (by omega)

theorem afterPublish (hsound : ring.Sound cfg) :
    ring.publish.Sound cfg where
  entry_eq := hsound.entry_eq
  table_eq := hsound.table_eq
  cursor_eq := hsound.cursor_eq
  executed_le := hsound.executed_le
  published :=
    ⟨ring.executed.length, hsound.cursor_eq, le_rfl, hsound.stores_lt⟩
  batch := by simp [publish]
  loaded := trivial
  contents := fun hshares =>
    (hsound.contents hshares).of_sameCalls (fun _ => rfl) rfl rfl

theorem afterLoadTable (hsound : ring.Sound cfg)
    (hclear : cfg.maxTableLen = 1 ∨ ring.midCrossing = false)
    (hstep : ring.step cfg .loadTable = some next) :
    next.Sound cfg := by
  have htable := hsound.tailTable_of_clear hclear
  rcases step_loadTable hstep with ⟨_, rfl⟩ | ⟨tailEntry, hworker, rfl⟩
  · exact hsound.withWorker (by simp) htable
  · have hloaded := hsound.loaded
    rw [hworker] at hloaded
    obtain ⟨position, hcursor, hle, hentry, hsame⟩ := hloaded
    refine hsound.takeBatch (Prod.ext ?_ hentry) hcursor hle
    rw [htable, ← hsame]
    rfl

theorem afterLoadEntry (hsound : ring.Sound cfg)
    (hstep : ring.step cfg .loadEntry = some next) :
    next.Sound cfg := by
  rcases step_loadEntry hstep with ⟨_, rfl⟩ | ⟨tailTable, hworker, rfl⟩
  · exact hsound.withWorker (by simp)
      ⟨ring.stores, hsound.executed_le, le_rfl, hsound.entry_eq, rfl⟩
  · have hloaded := hsound.loaded
    rw [hworker] at hloaded
    exact hsound.takeBatch (Prod.ext hloaded hsound.entry_eq)
      hsound.executed_le le_rfl

theorem afterStep (hsound : ring.Sound cfg) {action : TornAction}
    (hsafe : ring.NoOverrun cfg action)
    (hclear : ring.SnapshotClear cfg action)
    (hstep : ring.step cfg action = some next) :
    next.Sound cfg := by
  cases action with
  | write call =>
      obtain ⟨hproducer, rfl⟩ := step_write hstep
      exact hsound.afterWrite hproducer call
  | advance =>
      obtain ⟨i, j, call, hproducer, rfl⟩ := step_advance hstep
      exact hsound.afterAdvance hproducer (hsafe rfl)
        (hclear.imp id fun hboth => hboth.2 rfl)
  | storeTable =>
      obtain ⟨i, j, hproducer, rfl⟩ := step_storeTable hstep
      exact hsound.afterStoreTable hproducer
  | storeBusy =>
      obtain ⟨i, j, hproducer, rfl⟩ := step_storeBusy hstep
      exact hsound.afterStoreBusy hproducer
  | poll =>
      rcases step_poll hstep with rfl | rfl
      · exact hsound
      · exact hsound.withWorker (by simp) trivial
  | loadTable =>
      exact hsound.afterLoadTable
        (hclear.imp id fun hboth => hboth.1 (Or.inl rfl)) hstep
  | loadEntry =>
      exact hsound.afterLoadEntry hstep
  | execute =>
      obtain ⟨hworker, hsubmitted, rfl⟩ := step_execute hstep
      exact hsound.afterExecute hworker hsubmitted
  | publish =>
      rw [step_publish hstep]
      exact hsound.afterPublish

theorem countsOnlyWritten (hsound : ring.Sound cfg) :
    ring.CountsOnlyWritten := by
  constructor
  · intro hworker
    obtain ⟨remaining, hvalue, hbound⟩ := hsound.batch hworker
    have hle := stores_le ring
    have hshort : toShort (remaining : ℤ) ≤ remaining :=
      toShort_le (Int.natCast_nonneg remaining)
    rw [hvalue]
    omega
  · exact hsound.executed_le.trans (stores_le ring)

theorem executed_prefix (hsound : ring.Sound cfg)
    (hshares : cfg.SharesEntries) :
    ring.executed <+: ring.written.map Submission.call := by
  rw [(hsound.contents hshares).delivered, List.map_take]
  exact List.take_prefix _ _

end Sound

/-- In every run without overrun in which no table crossing meets a snapshot,
the worker never counts more than was written, and executes what was written
if the arrays share their entries. -/
theorem countsOnlyWritten_of_snapshotClear
    (hrun : Transition.run (step cfg) (register cfg memory)
      actions = some final)
    (hsafe : Transition.StepsMeet (step cfg) (NoOverrun cfg)
      (register cfg memory) actions)
    (hclear : Transition.StepsMeet (step cfg) (SnapshotClear cfg)
      (register cfg memory) actions) :
    final.CountsOnlyWritten ∧
      (cfg.SharesEntries →
        final.executed <+: final.written.map Submission.call) := by
  have hsound : final.Sound cfg :=
    Transition.run_invariant
      (fun _ _ _ hsound hboth hstep =>
        Sound.afterStep hsound hboth.1 hboth.2 hstep)
      (register_sound cfg memory) hrun (hsafe.and hclear)
  exact ⟨hsound.countsOnlyWritten, hsound.executed_prefix⟩

/-- A wrapped call that stays inside its table. -/
def insideCall (fd : ℤ) : List TornAction :=
  [.write (closeCall fd), .advance, .storeBusy]

/-- Two tables that fill their pages.  The sixty-fourth call crosses into the
second one before the worker takes its snapshot. -/
def crossingFirst : List TornAction :=
  (List.range 63).flatMap (fun n => insideCall n) ++
    [.write (closeCall 63), .advance, .storeTable, .storeBusy,
      .poll, .loadTable, .loadEntry] ++ List.replicate 63 .execute

theorem crossingFirst_countsOnlyWritten :
    ∃ final,
      Transition.run (step fullTables) (register fullTables blankMemory)
        crossingFirst = some final ∧
      final.table.tail = (1, 0) ∧ final.submitted = 1 ∧
      final.CountsOnlyWritten ∧
      final.executed <+: final.written.map Submission.call := by
  have hends :
      (Transition.run (step fullTables) (register fullTables blankMemory)
          crossingFirst).map
        (fun final => (final.table.tail, final.submitted)) =
      some ((1, 0), 1) := by decide +kernel
  obtain ⟨final, hrun, hfinal⟩ := Option.map_eq_some_iff.mp hends
  obtain ⟨htail, hsubmitted⟩ := Prod.mk.inj hfinal
  obtain ⟨hcounts, hexecuted⟩ :=
    countsOnlyWritten_of_snapshotClear hrun (by decide +kernel)
      (by decide +kernel)
  exact ⟨final, hrun, htail, hsubmitted, hcounts,
    hexecuted (Or.inl rfl)⟩

/-- The third call has stored its `tail_entry` and not yet its `tail_table`
when the worker, whose cursor is at slot `(0, 1)`, loads the two words. -/
def tornCrossing : List TornAction :=
  insideCall 5 ++
    [.poll, .loadTable, .loadEntry, .execute, .publish] ++
    insideCall 6 ++
    [.poll, .write (closeCall 7), .advance, .loadTable, .loadEntry]

/-- Five entries are counted where two were written and not executed. -/
theorem tornCrossing_overcounts :
    ∃ final,
      Transition.run (step twoTables) (register twoTables blankMemory)
        tornCrossing = some final ∧
      Transition.StepsMeet (step twoTables) (NoOverrun twoTables)
        (register twoTables blankMemory) tornCrossing ∧
      final.worker = .drain ∧ final.submitted = 5 ∧
      final.written.length - final.executed.length = 2 ∧
      ¬ final.CountsOnlyWritten := by
  have hrun :
      Transition.run (step twoTables) (register twoTables blankMemory)
        tornCrossing = some _ := rfl
  refine ⟨_, hrun, by decide, rfl, rfl, rfl, ?_⟩
  rintro ⟨hcount, _⟩
  exact absurd (hcount rfl) (by decide)

end TornRing

end Saio
