import Mathlib.Tactic

/-!
# A bank of first-in first-out lanes

A bank has one lane for each index.  An item is sent to a lane, and taken from
the front of one; the two logs keep the global order of all sends and of all
takes.  The lanes progress independently, so the logs as a whole need not
agree in order.  They do agree on every set of items that is confined to one
lane.
-/

universe u v

variable {ι : Type u} {α : Type v} [DecidableEq ι]

/-- The items of one lane in a log. -/
def FifoBank.lane (k : ι) (log : List (ι × α)) : List α :=
  (log.filter fun item => item.1 = k).map Prod.snd

structure FifoBank (ι : Type u) (α : Type v) [DecidableEq ι] where
  sent : List (ι × α)
  taken : List (ι × α)
  delivers : ∀ k, FifoBank.lane k taken <+: FifoBank.lane k sent

namespace FifoBank

inductive Action (ι : Type u) (α : Type v)
  | send (k : ι) (item : α)
  | take (k : ι)

@[simp] theorem lane_nil (k : ι) :
    lane k ([] : List (ι × α)) = [] := rfl

@[simp] theorem lane_append (k : ι) (first second : List (ι × α)) :
    lane k (first ++ second) = lane k first ++ lane k second := by
  simp [lane]

@[simp] theorem lane_singleton_self (k : ι) (item : α) :
    lane k [(k, item)] = [item] := by
  simp [lane]

theorem lane_singleton_of_ne {k n : ι} (hne : n ≠ k) (item : α) :
    lane k [(n, item)] = [] := by
  simp [lane, hne]

theorem lane_cons_self (k : ι) (item : α) (rest : List (ι × α)) :
    lane k ((k, item) :: rest) = item :: lane k rest := by
  simp [lane]

theorem lane_cons_of_ne {k n : ι} (hne : n ≠ k) (item : α)
    (rest : List (ι × α)) :
    lane k ((n, item) :: rest) = lane k rest := by
  simp [lane, hne]

theorem mem_lane {k : ι} {item : α} {log : List (ι × α)} :
    item ∈ lane k log ↔ (k, item) ∈ log := by
  simp [lane]

/-- The `n`-th item of a lane stands in the log behind `n` others of the
lane. -/
theorem getElem?_lane {k : ι} {item : α} {log : List (ι × α)} {n : ℕ}
    (hget : (lane k log)[n]? = some item) :
    ∃ g, log[g]? = some (k, item) ∧ (lane k (log.take g)).length = n := by
  induction log generalizing n with
  | nil => simp at hget
  | cons head rest ih =>
      rw [← List.singleton_append, lane_append] at hget
      by_cases hlane : head.1 = k
      · subst k
        rw [lane_singleton_self, List.singleton_append] at hget
        cases n with
        | zero =>
            rw [List.getElem?_cons_zero, Option.some.injEq] at hget
            exact ⟨0, by simp [← hget], rfl⟩
        | succ n =>
            obtain ⟨g, hg, hlength⟩ := ih hget
            refine ⟨g + 1, hg, ?_⟩
            rw [List.take_succ_cons, ← List.singleton_append,
              lane_append, lane_singleton_self, List.length_append,
              hlength, List.length_singleton, Nat.add_comm]
      · rw [lane_singleton_of_ne hlane, List.nil_append] at hget
        obtain ⟨g, hg, hlength⟩ := ih hget
        refine ⟨g + 1, hg, ?_⟩
        rw [List.take_succ_cons, ← List.singleton_append, lane_append,
          lane_singleton_of_ne hlane, List.nil_append, hlength]

/-- A log made of records: its lane is made of the records of the lane. -/
theorem lane_map {β : Type*} {γ : Type*} (k : ι) (index : β → ι)
    (value : β → γ) (records : List β) :
    lane k (records.map fun record => (index record, value record)) =
      (lane k (records.map fun record => (index record, record))).map
        value := by
  simp [lane, List.filter_map, Function.comp_def]

/-- Sending appends to one lane and leaves the others alone. -/
def send (bank : FifoBank ι α) (k : ι) (item : α) : FifoBank ι α where
  sent := bank.sent ++ [(k, item)]
  taken := bank.taken
  delivers := by
    intro n
    rw [lane_append]
    exact (bank.delivers n).trans (List.prefix_append _ _)

/-- The next item to be taken from a lane. -/
def front (bank : FifoBank ι α) (k : ι) : Option α :=
  (lane k bank.sent)[(lane k bank.taken).length]?

theorem lane_take_prefix (bank : FifoBank ι α) {k : ι} {item : α}
    (hfront : bank.front k = some item) :
    lane k bank.taken ++ [item] <+: lane k bank.sent := by
  obtain ⟨rest, hrest⟩ := bank.delivers k
  unfold front at hfront
  rw [← hrest, List.getElem?_append_right le_rfl, Nat.sub_self]
    at hfront
  rw [← hrest]
  cases rest with
  | nil => simp at hfront
  | cons first rest =>
      simp only [List.getElem?_cons_zero, Option.some.injEq] at hfront
      subst item
      exact ⟨rest, by simp⟩

def take (bank : FifoBank ι α) (k : ι) (item : α)
    (hfront : bank.front k = some item) : FifoBank ι α where
  sent := bank.sent
  taken := bank.taken ++ [(k, item)]
  delivers := by
    intro n
    rw [lane_append]
    by_cases hlane : k = n
    · subst n
      rw [lane_singleton_self]
      exact bank.lane_take_prefix hfront
    · rw [lane_singleton_of_ne hlane, List.append_nil]
      exact bank.delivers n

def step (bank : FifoBank ι α) : Action ι α → Option (FifoBank ι α)
  | .send k item => some (bank.send k item)
  | .take k =>
      match hfront : bank.front k with
      | none => none
      | some item => some (bank.take k item hfront)

theorem step_take (bank : FifoBank ι α) {k : ι} {item : α}
    (hfront : bank.front k = some item) :
    bank.step (.take k) = some (bank.take k item hfront) := by
  simp only [step]
  split
  next hnone =>
    rw [hfront] at hnone
    contradiction
  next found hfound =>
    have hitem : item = found := by
      rw [hfront] at hfound
      exact Option.some.inj hfound
    subst found
    rfl

/-! ## Items confined to one lane -/

/-- Every item of the log that meets the condition is in lane `k`. -/
def Confined (condition : α → Prop) (k : ι) (log : List (ι × α)) :
    Prop :=
  ∀ item ∈ log, condition item.2 → item.1 = k

theorem filter_eq_of_confined
    {condition : α → Prop} [DecidablePred condition]
    {k : ι} {log : List (ι × α)} (hconfined : Confined condition k log) :
    (log.map Prod.snd).filter (fun item => condition item) =
      (lane k log).filter fun item => condition item := by
  induction log with
  | nil => rfl
  | cons item rest ih =>
      have hrest : Confined condition k rest := by
        intro other hmem
        exact hconfined other (List.mem_cons_of_mem _ hmem)
      have hhead := hconfined item List.mem_cons_self
      have hsplit : lane k (item :: rest) = lane k [item] ++ lane k rest :=
        lane_append k [item] rest
      rw [hsplit, List.filter_append, ← ih hrest, List.map_cons]
      obtain ⟨n, value⟩ := item
      by_cases hvalue : condition value
      · have hlane : n = k := hhead hvalue
        subst n
        simp [hvalue]
      · by_cases hlane : n = k
        · subst n
          simp [hvalue]
        · simp [hvalue, lane_singleton_of_ne hlane]

theorem confined_taken (bank : FifoBank ι α)
    {condition : α → Prop} {k : ι}
    (hconfined : Confined condition k bank.sent) :
    Confined condition k bank.taken := by
  rintro ⟨n, value⟩ hmem hvalue
  have htaken : value ∈ lane n bank.taken := mem_lane.mpr hmem
  have hsent := mem_lane.mp ((bank.delivers n).subset htaken)
  exact hconfined (n, value) hsent hvalue

/-- Confined items are taken in the order in which they were sent. -/
theorem filter_prefix_of_confined (bank : FifoBank ι α)
    {condition : α → Prop} [DecidablePred condition] {k : ι}
    (hconfined : Confined condition k bank.sent) :
    (bank.taken.map Prod.snd).filter (fun item => condition item) <+:
      (bank.sent.map Prod.snd).filter fun item => condition item := by
  rw [filter_eq_of_confined hconfined,
    filter_eq_of_confined (bank.confined_taken hconfined)]
  exact (bank.delivers k).filter _

theorem filter_eq_of_drained (bank : FifoBank ι α)
    {condition : α → Prop} [DecidablePred condition] {k : ι}
    (hconfined : Confined condition k bank.sent)
    (hdrained : lane k bank.taken = lane k bank.sent) :
    (bank.taken.map Prod.snd).filter (fun item => condition item) =
      (bank.sent.map Prod.snd).filter fun item => condition item := by
  rw [filter_eq_of_confined hconfined,
    filter_eq_of_confined (bank.confined_taken hconfined), hdrained]

end FifoBank
