import Saio.SystemEffect
import Saio.RingDelivery
import Saio.FifoBank
import Mathlib.Tactic

/-!
# Delivery of the whole set: a bank of first-in first-out lanes

The histories of the system are the histories of its rings, merged in the
order of the tail advances and of the executions.  Every issued entry was
built by the wrapper for the ring that its call is routed to.  As long as no
ring is overrun all rings stay good.  If the two arrays share their entries as
well, or the rings are drained in order for another reason, the system
implements the bank whose lanes are its rings.
-/

namespace Saio

open FifoBank

variable {κ μ : Type} {dep : Deployment κ μ} {access : FlagAccess}
  {sys next final : System κ μ} {pages : ℤ → ℕ → ℕ → TableEntry}
  {memory : μ} {actions : List (SystemAction κ)}

/-- The entry is what the wrapper makes of the call, on the ring that the call
is routed to. -/
def Deployment.Builds (dep : Deployment κ μ)
    (source : κ) (idx : ℤ) (entry : SysCall) : Prop :=
  idx = dep.route source ∧
    ∃ memory i j, entry =
      (dep.wrapper.prepare dep.toTableConfig source memory idx i j).1

/-- What the control point of the user thread says about the producer side of
ring `k`. -/
def UserPc.ProducerAt (dep : Deployment κ μ) (user : UserPc κ)
    (k : ℤ) (producer : ProducerPc) : Prop :=
  match user with
  | .advancing idx source entry =>
      dep.Builds source idx entry ∧
        (k = idx → ∃ i j, producer = .written i j entry) ∧
        (k ≠ idx → producer = .idle)
  | .marking idx =>
      (k = idx → ∃ i j, producer = .advanced i j) ∧
        (k ≠ idx → producer = .idle)
  | _ => producer = .idle

theorem UserPc.producerAt_of_outside {user : UserPc κ}
    (houtside : user.Outside) (k : ℤ) (producer : ProducerPc) :
    user.ProducerAt dep k producer ↔ producer = .idle := by
  cases user with
  | advancing idx source entry => exact houtside.elim
  | marking idx => exact houtside.elim
  | _ => rfl

theorem Ring.step_producer_of_drain
    {cfg : TableConfig} {ring moved : Ring} {action : RingAction}
    (hstep : ring.step cfg action = some moved)
    (haction : action = .poll ∨ action = .snapshot ∨
      action = .publish ∨ action = .execute) :
    moved.producer = ring.producer := by
  rcases haction with rfl | rfl | rfl | rfl
  · obtain ⟨_, rfl | ⟨_, rfl⟩⟩ := Ring.step_poll hstep
    · rfl
    · rfl
  · obtain ⟨_, rfl⟩ := Ring.step_snapshot hstep
    rfl
  · obtain ⟨_, _, rfl⟩ := Ring.step_publish hstep
    rfl
  · obtain ⟨_, _, rfl⟩ := Ring.step_execute hstep
    rfl

namespace System

def sent (sys : System κ μ) : List (ℤ × SysCall) :=
  sys.issued.map fun record => (record.ring, record.entry)

def taken (sys : System κ μ) : List (ℤ × SysCall) :=
  sys.executed.map fun record => (record.ring, record.entry)

structure Recorded (dep : Deployment κ μ) (sys : System κ μ) :
    Prop where
  issued_eq : ∀ k,
    (sys.ring k).issued.map Submission.call = lane k sys.sent
  executed_eq : ∀ k, (sys.ring k).executed = lane k sys.taken
  producer : ∀ k, sys.user.ProducerAt dep k (sys.ring k).producer
  built : ∀ record ∈ sys.issued,
    dep.Builds record.source record.ring record.entry

theorem initWorker_recorded (dep : Deployment κ μ)
    (pages : ℤ → ℕ → ℕ → TableEntry) (memory : μ) :
    (dep.initWorker pages memory).Recorded dep where
  issued_eq := fun _ => rfl
  executed_eq := fun _ => rfl
  producer := fun _ => rfl
  built := by simp [Deployment.initWorker]

/-- A change of one ring that leaves all histories alone. -/
theorem RingMoves.history_eq {k : ℤ} {action : RingAction}
    (hmoves : RingMoves dep sys next k action)
    (hissued : (next.ring k).issued = (sys.ring k).issued)
    (hexecuted : (next.ring k).executed = (sys.ring k).executed) (n : ℤ) :
    (next.ring n).issued = (sys.ring n).issued ∧
      (next.ring n).executed = (sys.ring n).executed := by
  by_cases hn : n = k
  · subst n
    exact ⟨hissued, hexecuted⟩
  · rw [hmoves.others n hn]
    exact ⟨rfl, rfl⟩

namespace Recorded

theorem of_sameHistory (hrecorded : sys.Recorded dep)
    (hrings : ∀ k, (next.ring k).issued = (sys.ring k).issued ∧
      (next.ring k).executed = (sys.ring k).executed)
    (hissued : next.issued = sys.issued)
    (hexecuted : next.executed = sys.executed)
    (hproducer : ∀ k, next.user.ProducerAt dep k (next.ring k).producer) :
    next.Recorded dep where
  issued_eq := by
    intro k
    rw [(hrings k).1, sent, hissued]
    exact hrecorded.issued_eq k
  executed_eq := by
    intro k
    rw [(hrings k).2, taken, hexecuted]
    exact hrecorded.executed_eq k
  producer := hproducer
  built := by
    rw [hissued]
    exact hrecorded.built

theorem afterQuiet (hrecorded : sys.Recorded dep)
    (hring : ∀ k, next.ring k = sys.ring k)
    (hissued : next.issued = sys.issued)
    (hexecuted : next.executed = sys.executed)
    (huser : next.user = sys.user ∨
      sys.user.Outside ∧ next.user.Outside) :
    next.Recorded dep := by
  refine hrecorded.of_sameHistory ?_ hissued hexecuted ?_
  · intro k
    rw [hring k]
    exact ⟨rfl, rfl⟩
  · intro k
    have hbefore := hrecorded.producer k
    rw [hring k]
    rcases huser with hsame | ⟨houtside, hafter⟩
    · rw [hsame]
      exact hbefore
    · rw [UserPc.producerAt_of_outside houtside] at hbefore
      rw [UserPc.producerAt_of_outside hafter]
      exact hbefore

theorem producer_of_same (hrecorded : sys.Recorded dep)
    {k : ℤ} {action : RingAction}
    (hmoves : RingMoves dep sys next k action)
    (hproducer : (next.ring k).producer = (sys.ring k).producer)
    (huser : next.user = sys.user) (n : ℤ) :
    next.user.ProducerAt dep n (next.ring n).producer := by
  rw [huser]
  by_cases hn : n = k
  · subst n
    rw [hproducer]
    exact hrecorded.producer k
  · rw [hmoves.others n hn]
    exact hrecorded.producer n

theorem afterDrain (hrecorded : sys.Recorded dep)
    {k : ℤ} {action : RingAction}
    (hmoves : RingMoves dep sys next k action)
    (haction : action = .poll ∨ action = .snapshot ∨
      action = .publish)
    (hissued : next.issued = sys.issued)
    (hexecuted : next.executed = sys.executed)
    (huser : next.user = sys.user) :
    next.Recorded dep := by
  have hproducer :=
    Ring.step_producer_of_drain hmoves.moved
      (haction.imp_right (Or.imp_right Or.inl))
  have hhistory :
      (next.ring k).issued = (sys.ring k).issued ∧
        (next.ring k).executed = (sys.ring k).executed := by
    rcases haction with rfl | rfl | rfl
    · obtain ⟨_, heq | ⟨_, heq⟩⟩ := Ring.step_poll hmoves.moved <;>
        rw [heq] <;> exact ⟨rfl, rfl⟩
    · obtain ⟨_, heq⟩ := Ring.step_snapshot hmoves.moved
      rw [heq]
      exact ⟨rfl, rfl⟩
    · obtain ⟨_, _, heq⟩ := Ring.step_publish hmoves.moved
      rw [heq]
      exact ⟨rfl, rfl⟩
  exact hrecorded.of_sameHistory
    (hmoves.history_eq hhistory.1 hhistory.2) hissued hexecuted
    (hrecorded.producer_of_same hmoves hproducer huser)

theorem afterExecute (hrecorded : sys.Recorded dep) {k : ℤ}
    (hmoves : RingMoves dep sys next k .execute)
    (hissued : next.issued = sys.issued)
    (hexecuted : next.executed = sys.executed ++
      [⟨k, (sys.ring k).cursorEntry.call, sys.memory⟩])
    (huser : next.user = sys.user) :
    next.Recorded dep := by
  obtain ⟨_, _, hring⟩ := Ring.step_execute hmoves.moved
  have htaken :
      next.taken = sys.taken ++ [(k, (sys.ring k).cursorEntry.call)] := by
    simp [taken, hexecuted]
  constructor
  · intro n
    have hsame : (next.ring n).issued = (sys.ring n).issued := by
      by_cases hn : n = k
      · subst n
        rw [hring]
        rfl
      · rw [hmoves.others n hn]
    rw [hsame, sent, hissued]
    exact hrecorded.issued_eq n
  · intro n
    rw [htaken, lane_append, ← hrecorded.executed_eq n]
    by_cases hn : n = k
    · subst n
      rw [hring, lane_singleton_self]
      rfl
    · rw [hmoves.others n hn, lane_singleton_of_ne (Ne.symm hn),
        List.append_nil]
  · exact hrecorded.producer_of_same hmoves
      (Ring.step_producer_of_drain hmoves.moved (by simp)) huser
  · rw [hissued]
    exact hrecorded.built

theorem afterWrite (hrecorded : sys.Recorded dep)
    {source : κ} {entry : SysCall} (hready : sys.user = .ready)
    (hentry : ∃ i j, entry =
      (dep.wrapper.prepare dep.toTableConfig source sys.memory
        (dep.route source) i j).1)
    (hmoves : RingMoves dep sys next (dep.route source) (.write entry))
    (hissued : next.issued = sys.issued)
    (hexecuted : next.executed = sys.executed)
    (huser : next.user = .advancing (dep.route source) source entry) :
    next.Recorded dep := by
  obtain ⟨_, hring⟩ := Ring.step_write hmoves.moved
  obtain ⟨i, j, hbuilt⟩ := hentry
  refine hrecorded.of_sameHistory
    (hmoves.history_eq (by rw [hring]; rfl) (by rw [hring]; rfl))
    hissued hexecuted ?_
  intro n
  rw [huser]
  refine ⟨⟨rfl, sys.memory, i, j, hbuilt⟩, ?_, ?_⟩
  · rintro rfl
    rw [hring]
    exact ⟨_, _, rfl⟩
  · intro hn
    rw [hmoves.others n hn]
    have hidle := hrecorded.producer n
    rw [hready] at hidle
    exact hidle

theorem afterAdvance (hrecorded : sys.Recorded dep)
    {idx : ℤ} {source : κ} {entry : SysCall}
    (hadvancing : sys.user = .advancing idx source entry)
    (hmoves : RingMoves dep sys next idx .advance)
    (hissued : next.issued = sys.issued ++ [⟨source, idx, entry⟩])
    (hexecuted : next.executed = sys.executed)
    (huser : next.user = .marking idx) :
    next.Recorded dep := by
  obtain ⟨i, j, call, hwritten, _, hring⟩ :=
    Ring.step_advance hmoves.moved
  have hpoint : ∀ k,
      (UserPc.advancing idx source entry).ProducerAt dep k
        (sys.ring k).producer := by
    intro k
    rw [← hadvancing]
    exact hrecorded.producer k
  obtain ⟨hbuilds, hself, _⟩ := hpoint idx
  obtain ⟨i', j', hentry⟩ := hself rfl
  have hcall : call = entry := by
    rw [hwritten] at hentry
    injection hentry
  have hsent : next.sent = sys.sent ++ [(idx, entry)] := by
    simp [sent, hissued]
  constructor
  · intro n
    rw [hsent, lane_append, ← hrecorded.issued_eq n]
    by_cases hn : n = idx
    · subst n
      rw [hring, lane_singleton_self, ← hcall]
      simp [Ring.advance]
    · rw [hmoves.others n hn, lane_singleton_of_ne (Ne.symm hn),
        List.append_nil]
  · intro n
    have hsame : (next.ring n).executed = (sys.ring n).executed := by
      by_cases hn : n = idx
      · subst n
        rw [hring]
        rfl
      · rw [hmoves.others n hn]
    rw [hsame, taken, hexecuted]
    exact hrecorded.executed_eq n
  · intro n
    rw [huser]
    refine ⟨?_, ?_⟩
    · rintro rfl
      rw [hring]
      exact ⟨i, j, rfl⟩
    · intro hn
      rw [hmoves.others n hn]
      exact (hpoint n).2.2 hn
  · rw [hissued]
    intro record hmem
    rcases List.mem_append.mp hmem with hold | hnew
    · exact hrecorded.built record hold
    · rw [List.mem_singleton] at hnew
      subst record
      exact hbuilds

theorem afterMark (hrecorded : sys.Recorded dep) {idx : ℤ}
    (hmarking : sys.user = .marking idx)
    (hmoves : RingMoves dep sys next idx .storeBusy)
    (hissued : next.issued = sys.issued)
    (hexecuted : next.executed = sys.executed)
    (huser : next.user = .ready) :
    next.Recorded dep := by
  obtain ⟨i, j, _, hring⟩ := Ring.step_storeBusy hmoves.moved
  refine hrecorded.of_sameHistory
    (hmoves.history_eq (by rw [hring]; rfl) (by rw [hring]; rfl))
    hissued hexecuted ?_
  intro n
  rw [huser]
  by_cases hn : n = idx
  · subst n
    rw [hring]
    rfl
  · have hpoint := hrecorded.producer n
    rw [hmarking] at hpoint
    rw [hmoves.others n hn]
    exact hpoint.2 hn

theorem afterEffect (hrecorded : sys.Recorded dep)
    {action : SystemAction κ} (heffect : Effect dep sys action next) :
    next.Recorded dep := by
  cases heffect with
  | quiet hring hissued hexecuted huser =>
      exact hrecorded.afterQuiet hring hissued hexecuted huser
  | drain k ringAction hmoves haction hissued hexecuted huser =>
      exact hrecorded.afterDrain hmoves haction hissued hexecuted huser
  | execute k hmoves hissued hexecuted huser =>
      exact hrecorded.afterExecute hmoves hissued hexecuted huser
  | write source entry hready hentry hmoves hissued hexecuted huser =>
      exact hrecorded.afterWrite hready hentry hmoves hissued hexecuted
        huser
  | advance idx source entry hadvancing hmoves hissued hexecuted huser =>
      exact hrecorded.afterAdvance hadvancing hmoves hissued hexecuted
        huser
  | mark idx hmarking hmoves hissued hexecuted huser =>
      exact hrecorded.afterMark hmarking hmoves hissued hexecuted huser

end Recorded

/-! ## All rings stay good -/

def AllGood (dep : Deployment κ μ) (sys : System κ μ) : Prop :=
  ∀ k, (sys.ring k).Good dep.toTableConfig

theorem initWorker_allGood (dep : Deployment κ μ)
    (pages : ℤ → ℕ → ℕ → TableEntry) (memory : μ) :
    (dep.initWorker pages memory).AllGood dep := by
  intro k
  exact Ring.sysEscaRegister_good dep.toTableConfig (pages k)

theorem AllGood.afterMoves (hgood : sys.AllGood dep)
    {k : ℤ} {action : RingAction}
    (hmoves : RingMoves dep sys next k action)
    (hsafe : (sys.ring k).NoOverrun dep.toTableConfig action) :
    next.AllGood dep := by
  intro n
  by_cases hn : n = k
  · subst n
    exact (hgood k).afterStep hsafe hmoves.moved
  · rw [hmoves.others n hn]
    exact hgood n

theorem AllGood.afterEffect (hgood : sys.AllGood dep)
    {action : SystemAction κ} (hsafe : sys.NoOverrun dep action)
    (heffect : Effect dep sys action next) :
    next.AllGood dep := by
  cases heffect with
  | quiet hring _ _ _ =>
      intro k
      rw [hring k]
      exact hgood k
  | drain k ringAction hmoves haction _ _ _ =>
      apply hgood.afterMoves hmoves
      rcases haction with rfl | rfl | rfl <;> simp [Ring.NoOverrun]
  | execute k hmoves _ _ _ =>
      exact hgood.afterMoves hmoves (by simp [Ring.NoOverrun])
  | write source entry _ _ hmoves _ _ _ =>
      exact hgood.afterMoves hmoves (by simp [Ring.NoOverrun])
  | advance idx source entry hadvancing hmoves _ _ _ =>
      apply hgood.afterMoves hmoves
      exact hsafe idx (by simp [advancedRing, hadvancing])
  | mark idx _ hmoves _ _ _ =>
      exact hgood.afterMoves hmoves (by simp [Ring.NoOverrun])

/-! ## The bank -/

/-- Every ring has executed its calls in issue order. -/
def DrainsInOrder (sys : System κ μ) : Prop :=
  ∀ k, (sys.ring k).executed <+:
    (sys.ring k).issued.map Submission.call

theorem AllGood.drainsInOrder (hgood : sys.AllGood dep)
    (hshares : dep.SharesEntries) : sys.DrainsInOrder := by
  intro k
  rw [((hgood k).contents hshares).delivered, List.map_take]
  exact List.take_prefix _ _

/-- The system stands for the bank of its issued and executed entries. -/
def Implements (dep : Deployment κ μ) (sys : System κ μ)
    (bank : FifoBank ℤ SysCall) : Prop :=
  sys.Recorded dep ∧ sys.AllGood dep ∧
    bank.sent = sys.sent ∧ bank.taken = sys.taken

def emptyBank : FifoBank ℤ SysCall where
  sent := []
  taken := []
  delivers := fun _ => List.prefix_refl _

theorem initWorker_implements (dep : Deployment κ μ)
    (pages : ℤ → ℕ → ℕ → TableEntry) (memory : μ) :
    (dep.initWorker pages memory).Implements dep emptyBank :=
  ⟨initWorker_recorded dep pages memory,
    initWorker_allGood dep pages memory, rfl, rfl⟩

/-- Rings that are drained in order make a bank. -/
theorem Recorded.implements (hrecorded : sys.Recorded dep)
    (hgood : sys.AllGood dep) (horder : sys.DrainsInOrder) :
    ∃ bank, sys.Implements dep bank := by
  have hdelivers (k : ℤ) : lane k sys.taken <+: lane k sys.sent := by
    rw [← hrecorded.issued_eq, ← hrecorded.executed_eq]
    exact horder k
  exact ⟨⟨sys.sent, sys.taken, hdelivers⟩, hrecorded, hgood, rfl, rfl⟩

/-- The entry at the cursor of a good ring is the front of its lane. -/
theorem Implements.front_eq {bank : FifoBank ℤ SysCall} {k : ℤ}
    (himplements : sys.Implements dep bank) (hshares : dep.SharesEntries)
    (hpending :
      (sys.ring k).executed.length < (sys.ring k).issued.length) :
    bank.front k = some (sys.ring k).cursorEntry.call := by
  obtain ⟨hrecorded, hgood, hsent, htaken⟩ := himplements
  have happend :=
    ((hgood k).contents hshares).executed_append (hgood k) hpending
  rw [List.map_take] at happend
  have hget :
      ((sys.ring k).issued.map Submission.call)[
          (sys.ring k).executed.length]? =
        (((sys.ring k).issued.map Submission.call).take
          ((sys.ring k).executed.length + 1))[
          (sys.ring k).executed.length]? := by
    rw [List.getElem?_take_of_lt (Nat.lt_succ_self _)]
  unfold front
  rw [hsent, htaken, ← hrecorded.issued_eq k, ← hrecorded.executed_eq k,
    hget, ← happend, List.getElem?_append_right le_rfl, Nat.sub_self]
  rfl

/-- Along runs without overrun the set of rings is a bank of first-in
first-out lanes. -/
theorem simulates_bank (dep : Deployment κ μ) (access : FlagAccess)
    (hshares : dep.SharesEntries) :
    Transition.Simulates (step dep access) (NoOverrun dep)
      FifoBank.step (Implements dep) := by
  intro sys action next bank himplements hsafe hstep
  have heffect := step_effect hstep
  have hrecorded := himplements.1.afterEffect heffect
  have hgood := himplements.2.1.afterEffect hsafe heffect
  obtain ⟨_, _, hsent, htaken⟩ := id himplements
  cases heffect with
  | quiet _ hissued hexecuted _ =>
      refine ⟨[], bank, rfl, hrecorded, hgood, ?_, ?_⟩
      · rw [hsent, sent, sent, hissued]
      · rw [htaken, taken, taken, hexecuted]
  | drain k ringAction _ _ hissued hexecuted _ =>
      refine ⟨[], bank, rfl, hrecorded, hgood, ?_, ?_⟩
      · rw [hsent, sent, sent, hissued]
      · rw [htaken, taken, taken, hexecuted]
  | write source entry _ _ _ hissued hexecuted _ =>
      refine ⟨[], bank, rfl, hrecorded, hgood, ?_, ?_⟩
      · rw [hsent, sent, sent, hissued]
      · rw [htaken, taken, taken, hexecuted]
  | mark idx _ _ hissued hexecuted _ =>
      refine ⟨[], bank, rfl, hrecorded, hgood, ?_, ?_⟩
      · rw [hsent, sent, sent, hissued]
      · rw [htaken, taken, taken, hexecuted]
  | advance idx source entry _ _ hissued hexecuted _ =>
      refine ⟨[.send idx entry], bank.send idx entry, rfl, hrecorded,
        hgood, ?_, ?_⟩
      · simp [FifoBank.send, sent, hsent, hissued]
      · simp [FifoBank.send, taken, htaken, hexecuted]
  | execute k hmoves hissued hexecuted _ =>
      have hpending :
          (sys.ring k).executed.length < (sys.ring k).issued.length := by
        obtain ⟨hdrain, hsubmitted, _⟩ := Ring.step_execute hmoves.moved
        obtain ⟨remaining, _, hle⟩ :=
          (himplements.2.1 k).executed_lt_of_submitted hdrain hsubmitted
        omega
      have hfront := himplements.front_eq hshares hpending
      refine ⟨[.take k], bank.take k _ hfront, ?_, hrecorded, hgood,
        ?_, ?_⟩
      · rw [Transition.run_cons_of_step (bank.step_take hfront)]
        rfl
      · simp [FifoBank.take, sent, hsent, hissued]
      · simp [FifoBank.take, taken, htaken, hexecuted]

theorem run_implements (hshares : dep.SharesEntries)
    (hrun : Transition.run (step dep access)
      (dep.initWorker pages memory) actions = some final)
    (hsafe : Transition.StepsMeet (step dep access) (NoOverrun dep)
      (dep.initWorker pages memory) actions) :
    ∃ bank, final.Implements dep bank := by
  obtain ⟨_, bank, _, himplements⟩ :=
    (simulates_bank dep access hshares).run
      (initWorker_implements dep pages memory) hrun hsafe
  exact ⟨bank, himplements⟩

theorem run_recorded
    (hrun : Transition.run (step dep access)
      (dep.initWorker pages memory) actions = some final)
    (hsafe : Transition.StepsMeet (step dep access) (NoOverrun dep)
      (dep.initWorker pages memory) actions) :
    final.Recorded dep ∧ final.AllGood dep := by
  have hafter : ∀ (sys : System κ μ) (action : SystemAction κ)
      (next : System κ μ), sys.Recorded dep ∧ sys.AllGood dep →
      sys.NoOverrun dep action → sys.step dep access action = some next →
        next.Recorded dep ∧ next.AllGood dep := by
    intro sys action next hboth hsafe hstep
    have heffect := step_effect hstep
    exact ⟨hboth.1.afterEffect heffect, hboth.2.afterEffect hsafe heffect⟩
  exact Transition.run_invariant hafter
    ⟨initWorker_recorded dep pages memory,
      initWorker_allGood dep pages memory⟩ hrun hsafe

end System

end Saio
