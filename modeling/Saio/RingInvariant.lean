import Saio.RingModel
import Mathlib.Tactic

/-!
# The ring invariant

The circular slots are related to absolute positions.  The tail stands at the
number of issued calls, the cursor at the number of executed ones, and the
published head at some position between which and the tail there is less than
a lap.  All this is about the index words and holds wherever the two arrays of
entries lie.

What the entries hold needs more: the wrappers and the worker have to mean the
same entry by a slot.  Then every position from the cursor to the tail still
holds the call that was issued there, and is marked busy unless it is the
newest one and its producer has not stored the mark yet.

The invariant is kept by every step that does not advance the tail onto the
published head.
-/

namespace Saio

namespace Ring

/-- What the control point of a wrapped call says about the ring. -/
def ProducerAt (cfg : TableConfig) (ring : Ring) : ProducerPc → Prop
  | .idle => True
  | .written i j _ => (i, j) = cfg.slotAt ring.issued.length
  | .advanced i j =>
      0 < ring.issued.length ∧
        (i, j) = cfg.slotAt (ring.issued.length - 1)

/-- The published head is the slot of some position not beyond the cursor and
less than a lap behind the tail; outside a batch it is the cursor. -/
def PublishedAt (cfg : TableConfig) (ring : Ring) (position : ℕ) : Prop :=
  ring.table.head = cfg.slotAt position ∧
    position ≤ ring.executed.length ∧
    ring.issued.length < position + cfg.capacity ∧
    (ring.worker ≠ .drain → position = ring.executed.length)

/-- What the worker finds in the entries. -/
structure Contents (cfg : TableConfig) (ring : Ring) : Prop where
  delivered :
    ring.executed =
      (ring.issued.take ring.executed.length).map Submission.call
  content : ∀ k submission,
    ring.issued[k]? = some submission → ring.executed.length ≤ k →
      (ring.table.entryAt (cfg.slotAt k)).call = submission.call
  written : ∀ i j call, ring.producer = .written i j call →
    (ring.table.entryAt (i, j)).call = call
  status : ∀ k, ring.executed.length ≤ k → k < ring.issued.length →
    (ring.table.entryAt (cfg.slotAt k)).rstatus = .busy ∨
      k + 1 = ring.issued.length ∧
        ∃ i j, ring.producer = .advanced i j

structure Good (cfg : TableConfig) (ring : Ring) : Prop where
  tail_eq : ring.table.tail = cfg.slotAt ring.issued.length
  cursor_eq : ring.cursor = cfg.slotAt ring.executed.length
  slot_eq : ∀ k submission,
    ring.issued[k]? = some submission → submission.slot = cfg.slotAt k
  executed_le : ring.executed.length ≤ ring.issued.length
  published : ∃ position, ring.PublishedAt cfg position
  batch : ring.worker = .drain →
    ∃ remaining : ℕ,
      ring.submitted = toShort remaining ∧
        ring.executed.length + remaining ≤ ring.issued.length
  producer : ring.ProducerAt cfg ring.producer
  contents : cfg.SharesEntries → ring.Contents cfg

variable {cfg : TableConfig} {ring : Ring}

theorem sysEscaRegister_good
    (cfg : TableConfig) (memory : ℕ → ℕ → TableEntry) :
    (sysEscaRegister cfg memory).Good cfg where
  tail_eq := cfg.slotAt_zero.symm
  cursor_eq := cfg.slotAt_zero.symm
  slot_eq := by simp [sysEscaRegister]
  executed_le := le_rfl
  published :=
    ⟨0, cfg.slotAt_zero.symm, le_rfl,
      Nat.lt_add_left 0 cfg.capacity_pos, fun _ => rfl⟩
  batch := by simp [sysEscaRegister]
  producer := trivial
  contents := fun _ =>
    { delivered := rfl
      content := by simp [sysEscaRegister]
      written := by simp [sysEscaRegister]
      status := by simp [sysEscaRegister] }

namespace Good

theorem issued_lt (hgood : ring.Good cfg) :
    ring.issued.length < ring.executed.length + cfg.capacity := by
  obtain ⟨position, _, hle, hlap, _⟩ := hgood.published
  omega

/-- The slot at the tail belongs to no pending position. -/
theorem pending_ne_tail (hgood : ring.Good cfg) {k : ℕ}
    (hcursor : ring.executed.length ≤ k) (htail : k < ring.issued.length) :
    cfg.slotAt k ≠ cfg.slotAt ring.issued.length := by
  have hlap := hgood.issued_lt
  exact cfg.slotAt_ne htail (by omega)

/-- Different pending positions have different slots. -/
theorem cursor_ne_later (hgood : ring.Good cfg) {k : ℕ}
    (hcursor : ring.executed.length < k) (htail : k < ring.issued.length) :
    cfg.slotAt k ≠ cfg.slotAt ring.executed.length := by
  have hlap := hgood.issued_lt
  exact (cfg.slotAt_ne hcursor (by omega)).symm

/-- The entry that the next wrapped call fills is the one at the tail. -/
theorem userSlot_tail (hgood : ring.Good cfg)
    (hshares : cfg.SharesEntries) :
    cfg.userSlot ring.table.tail = cfg.slotAt ring.issued.length := by
  rw [hgood.tail_eq, hshares.userSlot_slotAt]

theorem written_slot (hgood : ring.Good cfg) {i j : ℕ} {call : SysCall}
    (hproducer : ring.producer = .written i j call) :
    (i, j) = cfg.slotAt ring.issued.length := by
  have hwritten := hgood.producer
  rwa [hproducer] at hwritten

theorem advanced_slot (hgood : ring.Good cfg) {i j : ℕ}
    (hproducer : ring.producer = .advanced i j) :
    0 < ring.issued.length ∧
      (i, j) = cfg.slotAt (ring.issued.length - 1) := by
  have hadvanced := hgood.producer
  rwa [hproducer] at hadvanced

/-- A non-zero counter leaves at least one pending entry. -/
theorem executed_lt_of_submitted (hgood : ring.Good cfg)
    (hworker : ring.worker = .drain) (hsubmitted : ring.submitted ≠ 0) :
    ∃ remaining : ℕ,
      toShort (ring.submitted - 1) = toShort remaining ∧
        ring.executed.length + remaining + 1 ≤ ring.issued.length := by
  obtain ⟨count, hvalue, hle⟩ := hgood.batch hworker
  obtain ⟨remaining, rfl, hpred⟩ := toShort_pred hvalue hsubmitted
  exact ⟨remaining, hpred, hle⟩

theorem published_of_noOverrun (hgood : ring.Good cfg)
    (hsafe : (ring.table.updateIndex cfg).tail ≠ ring.table.head) :
    ∃ position, ring.PublishedAt cfg position ∧
      ring.issued.length + 1 < position + cfg.capacity := by
  obtain ⟨position, hpublished⟩ := hgood.published
  refine ⟨position, hpublished, ?_⟩
  obtain ⟨hhead, _, hlap, _⟩ := hpublished
  by_contra hfull
  have heq : ring.issued.length + 1 = position + cfg.capacity := by
    omega
  apply hsafe
  rw [EscaTable.updateIndex_tail_of_slotAt hgood.tail_eq, heq, hhead]
  exact cfg.slotAt_add_capacity position

end Good

/-! ## What a step does to the entries -/

namespace Contents

theorem afterWrite (hcontents : ring.Contents cfg) (hgood : ring.Good cfg)
    (hshares : cfg.SharesEntries) (hproducer : ring.producer = .idle)
    (call : SysCall) : (ring.write cfg call).Contents cfg where
  delivered := hcontents.delivered
  content := by
    intro k submission hissued hcursor
    have htail : k < ring.issued.length :=
      (List.getElem?_eq_some_iff.mp hissued).1
    have hne : cfg.slotAt k ≠ cfg.userSlot ring.table.tail := by
      rw [hgood.userSlot_tail hshares]
      exact hgood.pending_ne_tail hcursor htail
    change ((ring.table.fillUser cfg _ call).entryAt _).call = _
    rw [EscaTable.fillUser_of_ne _ call hne]
    exact hcontents.content k submission hissued hcursor
  written := by
    rintro _ _ _ ⟨⟩
    change ((ring.table.fillUser cfg ring.table.tail call).entryAt
      ring.table.tail).call = call
    conv_lhs =>
      rw [hgood.tail_eq, ← EscaTable.userEntryAt_slotAt hshares]
    exact EscaTable.fillUser_call_self cfg _ _ call
  status := by
    intro k hcursor htail
    rcases hcontents.status k hcursor htail with
      hbusy | ⟨_, i, j, hadvanced⟩
    · left
      exact (EscaTable.fillUser_rstatus cfg _ _ _ call).trans hbusy
    · rw [hproducer] at hadvanced
      contradiction

theorem afterAdvance (hcontents : ring.Contents cfg)
    (hgood : ring.Good cfg) {i j : ℕ} {call : SysCall}
    (hproducer : ring.producer = .written i j call) :
    (ring.advance cfg i j call).Contents cfg where
  delivered := by
    change ring.executed =
      ((ring.issued ++ [_]).take ring.executed.length).map _
    rw [List.take_append_of_le_length hgood.executed_le]
    exact hcontents.delivered
  content := by
    intro k submission hissued hcursor
    change ((ring.table.updateIndex cfg).entryAt _).call = _
    rw [EscaTable.updateIndex_entryAt]
    rcases FifoChannel.get_append_cases hissued with hold | ⟨rfl, rfl⟩
    · exact hcontents.content k submission hold hcursor
    · rw [← hgood.written_slot hproducer]
      exact hcontents.written i j call hproducer
  written := by
    intro i' j' other hwritten
    contradiction
  status := by
    intro k hcursor htail
    have hlength :
        (ring.advance cfg i j call).issued.length =
          ring.issued.length + 1 := by
      simp [advance]
    rw [hlength] at htail ⊢
    change
      ((ring.table.updateIndex cfg).entryAt _).rstatus = _ ∨ _
    rw [EscaTable.updateIndex_entryAt]
    by_cases hold : k < ring.issued.length
    · rcases hcontents.status k hcursor hold with
        hbusy | ⟨_, i', j', hadv⟩
      · exact Or.inl hbusy
      · rw [hproducer] at hadv
        contradiction
    · exact Or.inr ⟨by omega, i, j, rfl⟩

theorem afterStoreBusy (hcontents : ring.Contents cfg)
    (hgood : ring.Good cfg) (hshares : cfg.SharesEntries) {i j : ℕ}
    (hproducer : ring.producer = .advanced i j) :
    (ring.storeBusy cfg i j).Contents cfg where
  delivered := hcontents.delivered
  content := by
    intro k submission hissued hcursor
    exact (EscaTable.markUser_call cfg _ _ _).trans
      (hcontents.content k submission hissued hcursor)
  written := by
    intro i' j' other hwritten
    contradiction
  status := by
    intro k hcursor htail
    left
    have hslot := (hgood.advanced_slot hproducer).2
    change ((ring.table.markUser cfg (i, j)).entryAt _).rstatus = _
    by_cases hsame : cfg.slotAt k = (i, j)
    · rw [← hsame, ← EscaTable.userEntryAt_slotAt hshares]
      exact EscaTable.markUser_rstatus_self cfg _ _
    · have hne : cfg.slotAt k ≠ cfg.userSlot (i, j) := by
        rw [hslot, hshares.userSlot_slotAt, ← hslot]
        exact hsame
      rw [EscaTable.markUser_rstatus_of_ne _ hne]
      rcases hcontents.status k hcursor htail with hbusy | ⟨hnewest, _⟩
      · exact hbusy
      · exact absurd (by rw [hslot, ← hnewest, Nat.add_sub_cancel]) hsame

/-- Steps of the worker that leave the entries and the histories alone. -/
theorem of_sameEntries (hcontents : ring.Contents cfg) {moved : Ring}
    (hentries : ∀ slot,
      moved.table.entryAt slot = ring.table.entryAt slot)
    (hproducer : moved.producer = ring.producer)
    (hissued : moved.issued = ring.issued)
    (hexecuted : moved.executed = ring.executed) :
    moved.Contents cfg := by
  constructor
  · rw [hexecuted, hissued]
    exact hcontents.delivered
  · simp only [hentries, hissued, hexecuted]
    exact hcontents.content
  · simp only [hentries, hproducer]
    exact hcontents.written
  · simp only [hentries, hissued, hexecuted, hproducer]
    exact hcontents.status

theorem executed_append (hcontents : ring.Contents cfg)
    (hgood : ring.Good cfg)
    (hlt : ring.executed.length < ring.issued.length) :
    ring.executed ++ [ring.cursorEntry.call] =
      (ring.issued.take (ring.executed.length + 1)).map
        Submission.call := by
  refine Submission.delivered_append hcontents.delivered hlt ?_
  intro submission hissued
  rw [RingBase.cursorEntry, hgood.cursor_eq]
  exact hcontents.content _ _ hissued le_rfl

theorem afterExecute (hcontents : ring.Contents cfg)
    (hgood : ring.Good cfg)
    (hlt : ring.executed.length < ring.issued.length) :
    (ring.execute cfg).Contents cfg := by
  have hlength :
      (ring.execute cfg).executed.length =
        ring.executed.length + 1 := by
    simp [execute]
  have hcall (slot : ℕ × ℕ) :
      ((ring.execute cfg).table.entryAt slot).call =
        (ring.table.entryAt slot).call :=
    ring.table.setStatus_call ring.cursor slot .empty
  constructor
  · rw [hlength]
    exact hcontents.executed_append hgood hlt
  · intro k submission hissued hcursor
    rw [hlength] at hcursor
    rw [hcall]
    exact hcontents.content k submission hissued (by omega)
  · intro i j call hwritten
    rw [hcall]
    exact hcontents.written i j call hwritten
  · intro k hcursor htail
    rw [hlength] at hcursor
    change k < ring.issued.length at htail
    have hne : cfg.slotAt k ≠ ring.cursor := by
      rw [hgood.cursor_eq]
      exact hgood.cursor_ne_later (by omega) htail
    change
      ((ring.table.setStatus ring.cursor .empty).entryAt _).rstatus =
        _ ∨ _
    rw [EscaTable.setStatus_rstatus_of_ne _ _ hne]
    exact hcontents.status k (by omega) htail

end Contents

/-! ## Every step without overrun keeps the ring good -/

namespace Good

theorem afterWrite (hgood : ring.Good cfg)
    (hproducer : ring.producer = .idle) (call : SysCall) :
    (ring.write cfg call).Good cfg where
  tail_eq := hgood.tail_eq
  cursor_eq := hgood.cursor_eq
  slot_eq := hgood.slot_eq
  executed_le := hgood.executed_le
  published := hgood.published
  batch := hgood.batch
  producer := hgood.tail_eq
  contents := fun hshares =>
    (hgood.contents hshares).afterWrite hgood hshares hproducer call

theorem afterAdvance (hgood : ring.Good cfg)
    {i j : ℕ} {call : SysCall}
    (hproducer : ring.producer = .written i j call)
    (hsafe : (ring.table.updateIndex cfg).tail ≠ ring.table.head) :
    (ring.advance cfg i j call).Good cfg := by
  have hslot := hgood.written_slot hproducer
  have hlength :
      (ring.advance cfg i j call).issued.length =
        ring.issued.length + 1 := by
    simp [advance]
  constructor
  · rw [hlength]
    exact EscaTable.updateIndex_tail_of_slotAt hgood.tail_eq
  · exact hgood.cursor_eq
  · intro k submission hissued
    rcases FifoChannel.get_append_cases hissued with hold | ⟨rfl, rfl⟩
    · exact hgood.slot_eq k submission hold
    · exact hslot
  · rw [hlength]
    exact hgood.executed_le.trans (Nat.le_succ _)
  · obtain ⟨position, hpublished, hlap⟩ :=
      hgood.published_of_noOverrun hsafe
    obtain ⟨hhead, hle, _, houtside⟩ := hpublished
    refine ⟨position, ?_, hle, ?_, houtside⟩
    · simpa [advance] using hhead
    · rw [hlength]
      exact hlap
  · intro hworker
    obtain ⟨remaining, hsubmitted, hle⟩ := hgood.batch hworker
    refine ⟨remaining, hsubmitted, ?_⟩
    rw [hlength]
    exact hle.trans (Nat.le_succ _)
  · refine ⟨by omega, ?_⟩
    rw [hlength, Nat.add_sub_cancel]
    exact hslot
  · intro hshares
    exact (hgood.contents hshares).afterAdvance hgood hproducer

theorem afterStoreBusy (hgood : ring.Good cfg) {i j : ℕ}
    (hproducer : ring.producer = .advanced i j) :
    (ring.storeBusy cfg i j).Good cfg where
  tail_eq := hgood.tail_eq
  cursor_eq := hgood.cursor_eq
  slot_eq := hgood.slot_eq
  executed_le := hgood.executed_le
  published := hgood.published
  batch := hgood.batch
  producer := trivial
  contents := fun hshares =>
    (hgood.contents hshares).afterStoreBusy hgood hshares hproducer

theorem afterSnapshotPoint (hgood : ring.Good cfg)
    (hworker : ring.worker = .poll) :
    ({ ring with worker := .snapshot } : Ring).Good cfg where
  tail_eq := hgood.tail_eq
  cursor_eq := hgood.cursor_eq
  slot_eq := hgood.slot_eq
  executed_le := hgood.executed_le
  published := by
    obtain ⟨position, hhead, hle, hlap, houtside⟩ := hgood.published
    refine ⟨position, hhead, hle, hlap, ?_⟩
    intro _
    apply houtside
    rw [hworker]
    simp
  batch := by simp
  producer := hgood.producer
  contents := fun hshares =>
    (hgood.contents hshares).of_sameEntries (fun _ => rfl) rfl rfl rfl

theorem afterSnapshot (hgood : ring.Good cfg) :
    (ring.snapshot cfg).Good cfg where
  tail_eq := hgood.tail_eq
  cursor_eq := hgood.cursor_eq
  slot_eq := hgood.slot_eq
  executed_le := hgood.executed_le
  published := by
    obtain ⟨position, hhead, hle, hlap, _⟩ := hgood.published
    exact ⟨position, hhead, hle, hlap, by simp [snapshot]⟩
  batch := by
    intro _
    refine ⟨ring.issued.length - ring.executed.length, ?_, ?_⟩
    · change toShort _ = toShort _
      rw [batchCount_of_slotAt hgood.cursor_eq hgood.tail_eq
        hgood.executed_le hgood.issued_lt]
    · have hle := hgood.executed_le
      change ring.executed.length +
        (ring.issued.length - ring.executed.length) ≤ ring.issued.length
      omega
  producer := hgood.producer
  contents := fun hshares =>
    (hgood.contents hshares).of_sameEntries (fun _ => rfl) rfl rfl rfl

/-- The producer's control point only looks at the issued calls. -/
theorem producerAt_of_sameIssued (hgood : ring.Good cfg) {moved : Ring}
    (hissued : moved.issued = ring.issued) :
    moved.ProducerAt cfg ring.producer := by
  have hproducer := hgood.producer
  unfold ProducerAt at *
  rwa [hissued]

theorem afterExecute (hgood : ring.Good cfg)
    (hworker : ring.worker = .drain) (hsubmitted : ring.submitted ≠ 0) :
    (ring.execute cfg).Good cfg := by
  obtain ⟨remaining, hvalue, hbound⟩ :=
    hgood.executed_lt_of_submitted hworker hsubmitted
  have hlt : ring.executed.length < ring.issued.length := by omega
  have hlength :
      (ring.execute cfg).executed.length =
        ring.executed.length + 1 := by
    simp [execute]
  constructor
  · exact hgood.tail_eq
  · rw [hlength]
    exact advanceCursor_of_slotAt hgood.cursor_eq
  · exact hgood.slot_eq
  · rw [hlength]
    exact hlt
  · obtain ⟨position, hhead, hle, hlap, _⟩ := hgood.published
    refine ⟨position, hhead, ?_, hlap, ?_⟩
    · rw [hlength]
      omega
    · intro hnot
      exact absurd hworker hnot
  · intro _
    refine ⟨remaining, hvalue, ?_⟩
    rw [hlength]
    change _ ≤ ring.issued.length
    omega
  · exact hgood.producerAt_of_sameIssued rfl
  · intro hshares
    exact (hgood.contents hshares).afterExecute hgood hlt

theorem afterPublish (hgood : ring.Good cfg) :
    ring.publish.Good cfg where
  tail_eq := hgood.tail_eq
  cursor_eq := hgood.cursor_eq
  slot_eq := hgood.slot_eq
  executed_le := hgood.executed_le
  published :=
    ⟨ring.executed.length, hgood.cursor_eq, le_rfl, hgood.issued_lt,
      fun _ => rfl⟩
  batch := by simp [publish]
  producer := hgood.producerAt_of_sameIssued rfl
  contents := fun hshares =>
    (hgood.contents hshares).of_sameEntries (fun _ => rfl) rfl rfl rfl

theorem afterStep (hgood : ring.Good cfg)
    {action : RingAction} {next : Ring}
    (hsafe : ring.NoOverrun cfg action)
    (hstep : ring.step cfg action = some next) :
    next.Good cfg := by
  cases action with
  | write call =>
      obtain ⟨hproducer, rfl⟩ := step_write hstep
      exact hgood.afterWrite hproducer call
  | advance =>
      obtain ⟨i, j, call, hproducer, _, rfl⟩ := step_advance hstep
      exact hgood.afterAdvance hproducer (hsafe rfl)
  | storeBusy =>
      obtain ⟨i, j, hproducer, rfl⟩ := step_storeBusy hstep
      exact hgood.afterStoreBusy hproducer
  | poll =>
      obtain ⟨hworker, rfl | ⟨_, rfl⟩⟩ := step_poll hstep
      · exact hgood
      · exact hgood.afterSnapshotPoint hworker
  | snapshot =>
      obtain ⟨_, rfl⟩ := step_snapshot hstep
      exact hgood.afterSnapshot
  | execute =>
      obtain ⟨hworker, hsubmitted, rfl⟩ := step_execute hstep
      exact hgood.afterExecute hworker hsubmitted
  | publish =>
      obtain ⟨_, _, rfl⟩ := step_publish hstep
      exact hgood.afterPublish

end Good

/-- Every run without overrun of a registered ring ends in a good state. -/
theorem run_good
    {memory : ℕ → ℕ → TableEntry} {actions : List RingAction}
    {final : Ring}
    (hrun : Transition.run (step cfg) (sysEscaRegister cfg memory)
      actions = some final)
    (hsafe : Transition.StepsMeet (step cfg) (NoOverrun cfg)
      (sysEscaRegister cfg memory) actions) :
    final.Good cfg :=
  Transition.run_invariant
    (fun _ _ _ hgood hsafe hstep => Good.afterStep hgood hsafe hstep)
    (sysEscaRegister_good cfg memory) hrun hsafe

end Ring

end Saio
