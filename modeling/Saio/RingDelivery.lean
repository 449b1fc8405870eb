import Saio.RingInvariant
import Saio.FifoChannel
import Mathlib.Tactic

/-!
# Delivery: the ring is a first-in first-out channel

A good ring is the channel whose sent items are the issued calls and of which
as many are taken as were executed.  Each step without overrun is matched by
at most one step of that channel: the tail advance sends, the execution of an
entry takes, and everything else is invisible.  When the two arrays share
their entries, what was taken is also what was executed.

The second half reads the status marks.  The only entry between the cursor
and the tail that may not be marked busy is the newest one, while its producer
is still before its last store.

Two tables that do not fill their pages break both: the worker executes
entries of its second table that no wrapped call fills, and waits for marks
that are stored elsewhere.
-/

namespace Saio

namespace Ring

variable {cfg : TableConfig} {ring final : Ring}
  {memory : ℕ → ℕ → TableEntry} {actions : List RingAction}

/-- The ring stands for the channel of its issued and executed calls. -/
def Implements
    (cfg : TableConfig) (ring : Ring) (channel : FifoChannel SysCall) :
    Prop :=
  ring.Good cfg ∧
    channel.sent = ring.issued.map Submission.call ∧
    channel.taken = ring.executed.length

def Good.channel (hgood : ring.Good cfg) : FifoChannel SysCall where
  sent := ring.issued.map Submission.call
  taken := ring.executed.length
  taken_le := by
    rw [List.length_map]
    exact hgood.executed_le

theorem Good.implements (hgood : ring.Good cfg) :
    ring.Implements cfg hgood.channel :=
  ⟨hgood, rfl, rfl⟩

theorem Implements.executed_eq_delivered
    {channel : FifoChannel SysCall}
    (himplements : ring.Implements cfg channel)
    (hshares : cfg.SharesEntries) :
    ring.executed = channel.delivered := by
  obtain ⟨hgood, hsent, htaken⟩ := himplements
  have hdelivered := (hgood.contents hshares).delivered
  rw [List.map_take, ← hsent, ← htaken] at hdelivered
  exact hdelivered

theorem step_history
    {action : RingAction} {next : Ring}
    (hstep : ring.step cfg action = some next) :
    (∃ submission, next.issued = ring.issued ++ [submission] ∧
        next.executed = ring.executed) ∨
      (∃ call, next.executed = ring.executed ++ [call] ∧
        next.issued = ring.issued) ∨
      (next.issued = ring.issued ∧ next.executed = ring.executed) := by
  cases action with
  | write call =>
      obtain ⟨_, rfl⟩ := step_write hstep
      exact Or.inr (Or.inr ⟨rfl, rfl⟩)
  | advance =>
      obtain ⟨i, j, call, _, _, rfl⟩ := step_advance hstep
      exact Or.inl ⟨⟨i, j, call⟩, rfl, rfl⟩
  | storeBusy =>
      obtain ⟨i, j, _, rfl⟩ := step_storeBusy hstep
      exact Or.inr (Or.inr ⟨rfl, rfl⟩)
  | poll =>
      obtain ⟨_, rfl | ⟨_, rfl⟩⟩ := step_poll hstep
      · exact Or.inr (Or.inr ⟨rfl, rfl⟩)
      · exact Or.inr (Or.inr ⟨rfl, rfl⟩)
  | snapshot =>
      obtain ⟨_, rfl⟩ := step_snapshot hstep
      exact Or.inr (Or.inr ⟨rfl, rfl⟩)
  | execute =>
      obtain ⟨_, _, rfl⟩ := step_execute hstep
      exact Or.inr (Or.inl ⟨ring.cursorEntry.call, rfl, rfl⟩)
  | publish =>
      obtain ⟨_, _, rfl⟩ := step_publish hstep
      exact Or.inr (Or.inr ⟨rfl, rfl⟩)

theorem simulates_channel (cfg : TableConfig) :
    Transition.Simulates (step cfg) (NoOverrun cfg)
      FifoChannel.step (Implements cfg) := by
  intro ring action next channel himplements hsafe hstep
  obtain ⟨hgood, hsent, htaken⟩ := himplements
  have hnext := hgood.afterStep hsafe hstep
  rcases step_history hstep with
    ⟨submission, hissued, hexecuted⟩ | ⟨call, hexecuted, hissued⟩ |
      ⟨hissued, hexecuted⟩
  · refine ⟨[.send submission.call], channel.send submission.call,
      FifoChannel.run_send channel _, hnext, ?_, ?_⟩
    · rw [hissued, List.map_append, ← hsent]
      rfl
    · rw [hexecuted]
      exact htaken
  · have havailable : channel.taken < channel.sent.length := by
      have hle := hnext.executed_le
      rw [hexecuted, hissued, List.length_append,
        List.length_singleton] at hle
      rw [hsent, htaken, List.length_map]
      omega
    refine ⟨[.take], channel.take havailable,
      FifoChannel.run_take channel havailable, hnext, ?_, ?_⟩
    · rw [hissued]
      exact hsent
    · rw [hexecuted, List.length_append, List.length_singleton,
        ← htaken]
      rfl
  · refine ⟨[], channel, rfl, hnext, ?_, ?_⟩
    · rw [hissued]
      exact hsent
    · rw [hexecuted]
      exact htaken

theorem Good.executed_length_of_cursor (hgood : ring.Good cfg)
    (hcursor : ring.cursor = ring.table.tail) :
    ring.executed.length = ring.issued.length := by
  rw [hgood.cursor_eq, hgood.tail_eq] at hcursor
  exact cfg.slotAt_injective hgood.executed_le hgood.issued_lt hcursor

/-- Exactly-once delivery in issue order, for every interleaving in which no
tail advance reaches the published head. -/
theorem delivers_in_order (hshares : cfg.SharesEntries)
    (hrun : Transition.run (step cfg) (sysEscaRegister cfg memory)
      actions = some final)
    (hsafe : Transition.StepsMeet (step cfg) (NoOverrun cfg)
      (sysEscaRegister cfg memory) actions) :
    final.executed <+: final.issued.map Submission.call ∧
      (final.cursor = final.table.tail →
        final.executed = final.issued.map Submission.call) := by
  have hstart := sysEscaRegister_good cfg memory
  obtain ⟨_, channel, _, himplements⟩ :=
    (simulates_channel cfg).run hstart.implements hrun hsafe
  have hexecuted := himplements.executed_eq_delivered hshares
  obtain ⟨hgood, hsent, htaken⟩ := himplements
  rw [hexecuted, ← hsent]
  refine ⟨channel.delivered_prefix, ?_⟩
  intro hcursor
  apply FifoChannel.delivered_eq_sent
  rw [htaken, hsent, List.length_map]
  exact hgood.executed_length_of_cursor hcursor

theorem earlyBatch_delivered :
    ∃ final,
      Transition.run (step threeEntryTable)
          (sysEscaRegister threeEntryTable blankMemory) earlyBatch =
        some final ∧
      final.executed = [closeCall 5, closeCall 6] := by
  refine ⟨_, rfl, ?_⟩
  have hrun :
      Transition.run (step threeEntryTable)
          (sysEscaRegister threeEntryTable blankMemory) earlyBatch =
        some _ := rfl
  exact (delivers_in_order (by decide) hrun (by decide)).2 rfl

/-- Four calls on two tables of three entries.  The last one is filled behind
the third in the first page, and the worker looks for it at the start of the
second page: it executes a blank entry there and has reached the tail. -/
theorem shortTables_lose_call :
    ∃ final,
      Transition.run (step twoTables) (sysEscaRegister twoTables blankMemory)
          (closeAll [5, 6, 7, 8] ++ drainBatch 4) = some final ∧
      Transition.StepsMeet (step twoTables) (NoOverrun twoTables)
        (sysEscaRegister twoTables blankMemory)
        (closeAll [5, 6, 7, 8] ++ drainBatch 4) ∧
      final.cursor = final.table.tail ∧
      final.executed =
        [closeCall 5, closeCall 6, closeCall 7, (blankMemory 1 0).call] ∧
      ¬ final.executed <+: final.issued.map Submission.call := by
  refine ⟨_, rfl, by decide, rfl, rfl, ?_⟩
  decide

/-! ## Status marks of pending entries -/

theorem Good.executed_length_of_empty (hgood : ring.Good cfg)
    (hshares : cfg.SharesEntries)
    (hempty : ring.cursorEntry.rstatus = .empty)
    (hproducer : ring.producer = .idle) :
    ring.executed.length = ring.issued.length := by
  by_contra hne
  have hle := hgood.executed_le
  rcases (hgood.contents hshares).status ring.executed.length le_rfl
    (by omega) with hbusy | ⟨_, i, j, hadvanced⟩
  · rw [← hgood.cursor_eq] at hbusy
    rw [RingBase.cursorEntry, hbusy] at hempty
    contradiction
  · rw [hproducer] at hadvanced
    contradiction

/-- No pending entry is invisible: a worker that polls an empty head slot
while the producer is between calls has executed everything. -/
theorem pending_entries_visible (hshares : cfg.SharesEntries)
    (hrun : Transition.run (step cfg) (sysEscaRegister cfg memory)
      actions = some final)
    (hsafe : Transition.StepsMeet (step cfg) (NoOverrun cfg)
      (sysEscaRegister cfg memory) actions) :
    (∀ k submission,
        final.issued[k]? = some submission →
        final.executed.length ≤ k →
          (final.table.entryAt submission.slot).rstatus = .busy ∨
            k + 1 = final.issued.length ∧
              final.producer =
                .advanced submission.table submission.entry) ∧
      (final.worker = .poll →
        final.cursorEntry.rstatus = .empty →
        final.producer = .idle →
          final.pending = [] ∧ final.cursor = final.table.tail) := by
  have hgood := run_good hrun hsafe
  constructor
  · intro k submission hissued hcursor
    have htail := (List.getElem?_eq_some_iff.mp hissued).1
    have hslot := hgood.slot_eq k submission hissued
    rw [hslot]
    rcases (hgood.contents hshares).status k hcursor htail with
      hbusy | ⟨hnewest, i, j, hpc⟩
    · exact Or.inl hbusy
    · right
      have hsame : (i, j) = submission.slot := by
        rw [hslot, (hgood.advanced_slot hpc).2, ← hnewest,
          Nat.add_sub_cancel]
      simp only [Submission.slot, Prod.mk.injEq] at hsame
      exact ⟨hnewest, by rw [hpc, hsame.1, hsame.2]⟩
  · intro _ hempty hproducer
    have hlength := hgood.executed_length_of_empty hshares hempty hproducer
    constructor
    · rw [pending, hlength]
      exact List.drop_length
    · rw [hgood.cursor_eq, hgood.tail_eq, hlength]

/-- Three calls, of which the last has not stored its mark. -/
def lastUnmarked : List RingAction :=
  closeAll [5, 6] ++ [.write (closeCall 7), .advance]

theorem lastUnmarked_visible :
    (∃ waiting,
      Transition.run (step defaultTable)
          (sysEscaRegister defaultTable blankMemory) lastUnmarked =
        some waiting ∧
      waiting.pending.length = 3 ∧
      ∀ k submission, waiting.issued[k]? = some submission →
        (waiting.table.entryAt submission.slot).rstatus = .busy ∨
          k + 1 = 3 ∧
            waiting.producer =
              .advanced submission.table submission.entry) ∧
      ∃ drained,
        Transition.run (step defaultTable)
            (sysEscaRegister defaultTable blankMemory)
            (lastUnmarked ++ [.storeBusy] ++ drainBatch 3) =
          some drained ∧
        drained.cursorEntry.rstatus = .empty ∧ drained.pending = [] := by
  constructor
  · have hrun :
        Transition.run (step defaultTable)
            (sysEscaRegister defaultTable blankMemory) lastUnmarked =
          some _ := rfl
    refine ⟨_, hrun, rfl, ?_⟩
    intro k submission hissued
    exact (pending_entries_visible (by decide) hrun (by decide)).1 k
      submission hissued (Nat.zero_le k)
  · have hrun :
        Transition.run (step defaultTable)
            (sysEscaRegister defaultTable blankMemory)
            (lastUnmarked ++ [.storeBusy] ++ drainBatch 3) =
          some _ := rfl
    exact ⟨_, hrun, rfl,
      ((pending_entries_visible (by decide) hrun (by decide)).2
        rfl rfl rfl).1⟩

/-- A fifth call behind the four of `shortTables_lose_call` is marked where
the worker does not look: it polls an empty slot again and again, with the
program between two calls. -/
theorem shortTables_hide_call :
    ∃ final,
      Transition.run (step twoTables) (sysEscaRegister twoTables blankMemory)
          (closeAll [5, 6, 7, 8] ++ drainBatch 4 ++ closeAll [9]) =
        some final ∧
      Transition.StepsMeet (step twoTables) (NoOverrun twoTables)
        (sysEscaRegister twoTables blankMemory)
        (closeAll [5, 6, 7, 8] ++ drainBatch 4 ++ closeAll [9]) ∧
      final.worker = .poll ∧ final.producer = .idle ∧
      final.cursorEntry.rstatus = .empty ∧
      final.step twoTables .poll = some final ∧
      final.pending = [⟨1, 1, closeCall 9⟩] ∧
      (final.table.userEntryAt twoTables (1, 1)).rstatus = .busy :=
  ⟨_, rfl, by decide, rfl, rfl, rfl, rfl, rfl, rfl⟩

end Ring

end Saio
