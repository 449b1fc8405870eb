import Saio.FifoBank
import Mathlib.Tactic

/-!
# Effects carried out late, lane by lane

The items sent to a bank of lanes have effects on a state, but an item takes
effect only when it is taken.  Lanes progress independently, so effects are
carried out in another order than the items were sent in.

The difference does not matter as long as the waiting items of different lanes
have commuting effects: carrying out the rest of the log in its own order then
leads to the state in which every item had taken effect when it was sent.  The
same holds with effects carried out at once in between, if they commute with
everything that waits.

An item may also have a result.  If the items of different lanes do not notice
each other's effects, the result of an item when it is taken is the one that it
would have had when it was sent.
-/

namespace FifoBank

universe u v w

/-! ## Carrying out a list of effects -/

section Perform

variable {α : Type v} {σ : Type w} {effect : α → σ → σ}

/-- Let the items take effect one after another. -/
def perform (effect : α → σ → σ) : List α → σ → σ
  | [], state => state
  | item :: rest, state => perform effect rest (effect item state)

@[simp] theorem perform_nil (state : σ) :
    perform effect [] state = state := rfl

@[simp] theorem perform_cons (item : α) (rest : List α) (state : σ) :
    perform effect (item :: rest) state =
      perform effect rest (effect item state) := rfl

theorem perform_append (first second : List α) (state : σ) :
    perform effect (first ++ second) state =
      perform effect second (perform effect first state) := by
  induction first generalizing state with
  | nil => rfl
  | cons item rest ih => exact ih (effect item state)

theorem perform_map {β : Type*} (f : β → α) (items : List β) (state : σ) :
    perform effect (items.map f) state =
      perform (fun item => effect (f item)) items state := by
  induction items generalizing state with
  | nil => rfl
  | cons item rest ih => exact ih (effect (f item) state)

/-- What commutes with every item commutes with all of them together. -/
theorem perform_commute {items : List α} {act : σ → σ}
    (hcommute : ∀ item ∈ items, Function.Commute (effect item) act) :
    Function.Commute (perform effect items) act := by
  induction items with
  | nil => exact fun _ => rfl
  | cons item rest ih =>
      intro state
      rw [perform_cons, perform_cons,
        hcommute item List.mem_cons_self state]
      exact ih (fun other hmem =>
        hcommute other (List.mem_cons_of_mem item hmem)) _

end Perform

/-! ## What waits in a log -/

section Waiting

variable {ι : Type u} {α : Type v} [DecidableEq ι]

/-- The log without the first `counts k` items of each lane `k`. -/
def waiting (counts : ι → ℕ) : List (ι × α) → List (ι × α)
  | [] => []
  | item :: rest =>
      if counts item.1 = 0 then item :: waiting counts rest
      else
        waiting (Function.update counts item.1 (counts item.1 - 1)) rest

theorem mem_of_mem_waiting {counts : ι → ℕ} {item : ι × α}
    {log : List (ι × α)} (hmem : item ∈ waiting counts log) :
    item ∈ log := by
  induction log generalizing counts with
  | nil => exact hmem
  | cons head rest ih =>
      unfold waiting at hmem
      split at hmem
      next =>
        rcases List.mem_cons.mp hmem with rfl | hrest
        · exact List.mem_cons_self
        · exact List.mem_cons_of_mem head (ih hrest)
      next => exact List.mem_cons_of_mem head (ih hmem)

theorem lane_map_snd {β : Type*} (f : β → α) (k : ι)
    (log : List (ι × β)) :
    lane k (log.map (Prod.map id f)) = (lane k log).map f := by
  simp [lane, List.filter_map, Function.comp_def]

theorem waiting_map {β : Type*} (f : β → α) (counts : ι → ℕ)
    (log : List (ι × β)) :
    waiting counts (log.map (Prod.map id f)) =
      (waiting counts log).map (Prod.map id f) := by
  induction log generalizing counts with
  | nil => rfl
  | cons head rest ih =>
      simp only [List.map_cons, waiting, Prod.map_fst, id_eq]
      split
      next => rw [ih, List.map_cons]
      next => exact ih _

/-- Each lane waits by itself. -/
theorem mem_waiting_iff {counts : ι → ℕ} {k : ι} {item : α}
    {log : List (ι × α)} :
    (k, item) ∈ waiting counts log ↔
      item ∈ (lane k log).drop (counts k) := by
  induction log generalizing counts with
  | nil => simp [waiting]
  | cons head rest ih =>
      obtain ⟨n, value⟩ := head
      unfold waiting
      split
      next hzero =>
        rw [List.mem_cons, ih]
        by_cases hlane : n = k
        · subst n
          simp [lane_cons_self, show counts k = 0 from hzero]
        · simp [lane_cons_of_ne hlane, Ne.symm hlane]
      next hne =>
        rw [ih]
        by_cases hlane : n = k
        · subst n
          obtain ⟨m, hm⟩ := Nat.exists_eq_succ_of_ne_zero hne
          rw [lane_cons_self, Function.update_self, hm]
          rfl
        · rw [lane_cons_of_ne hlane,
            Function.update_of_ne (Ne.symm hlane)]

/-- The place of an item in its lane is the number of items of the lane in
front of it. -/
theorem getElem?_lane_take {k : ι} {item : α} {log : List (ι × α)} {g : ℕ}
    (hget : log[g]? = some (k, item)) :
    (lane k log)[(lane k (log.take g)).length]? = some item := by
  induction log generalizing g with
  | nil => simp at hget
  | cons head rest ih =>
      cases g with
      | zero =>
          rw [List.getElem?_cons_zero, Option.some.injEq] at hget
          simp [hget, lane_cons_self]
      | succ g =>
          rw [List.getElem?_cons_succ] at hget
          obtain ⟨n, value⟩ := head
          rw [List.take_succ_cons]
          by_cases hlane : n = k
          · subst n
            rw [lane_cons_self, lane_cons_self, List.length_cons,
              List.getElem?_cons_succ]
            exact ih hget
          · rw [lane_cons_of_ne hlane, lane_cons_of_ne hlane]
            exact ih hget

/-- A new item waits behind the others. -/
theorem waiting_append_singleton {counts : ι → ℕ} {k : ι}
    {log : List (ι × α)} (hle : counts k ≤ (lane k log).length)
    (item : α) :
    waiting counts (log ++ [(k, item)]) =
      waiting counts log ++ [(k, item)] := by
  induction log generalizing counts with
  | nil =>
      have hzero : counts k = 0 := Nat.le_zero.mp hle
      simp [waiting, hzero]
  | cons head rest ih =>
      obtain ⟨n, value⟩ := head
      rw [List.cons_append]
      unfold waiting
      split
      next hzero =>
        rw [List.cons_append, ih]
        by_cases hlane : n = k
        · rw [← hlane, show counts n = 0 from hzero]
          exact Nat.zero_le _
        · rwa [lane_cons_of_ne hlane] at hle
      next =>
        apply ih
        by_cases hlane : n = k
        · subst n
          rw [lane_cons_self, List.length_cons] at hle
          rw [Function.update_self]
          exact Nat.sub_le_iff_le_add.mpr hle
        · rw [Function.update_of_ne (Ne.symm hlane)]
          rwa [lane_cons_of_ne hlane] at hle

/-- The next item of a lane waits behind items of other lanes only, and no
other item changes its place when it is taken. -/
theorem waiting_take {counts : ι → ℕ} {k : ι} {item : α}
    {log : List (ι × α)} (hfront : (lane k log)[counts k]? = some item) :
    ∃ before after,
      waiting counts log = before ++ (k, item) :: after ∧
        (∀ other ∈ before, other.1 ≠ k) ∧
        waiting (Function.update counts k (counts k + 1)) log =
          before ++ after := by
  induction log generalizing counts with
  | nil => simp at hfront
  | cons head rest ih =>
      obtain ⟨n, value⟩ := head
      by_cases hzero : counts n = 0
      · by_cases hlane : n = k
        · subst n
          rw [lane_cons_self, hzero, List.getElem?_cons_zero,
            Option.some.injEq] at hfront
          subst value
          refine ⟨[], waiting counts rest, ?_, by simp, ?_⟩
          · simp [waiting, hzero]
          · have hback : Function.update
                (Function.update counts k (counts k + 1)) k
                (counts k + 1 - 1) = counts := by
              rw [Function.update_idem, Nat.add_sub_cancel,
                Function.update_eq_self]
            simp only [waiting, Function.update_self, hback,
              Nat.add_one_ne_zero, if_false, List.nil_append]
        · rw [lane_cons_of_ne hlane] at hfront
          obtain ⟨before, after, hwaiting, hothers, htaken⟩ := ih hfront
          refine ⟨(n, value) :: before, after, ?_, ?_, ?_⟩
          · simp [waiting, hzero, hwaiting]
          · intro other hmem
            rcases List.mem_cons.mp hmem with rfl | hrest
            · exact hlane
            · exact hothers other hrest
          · simp [waiting, Function.update_of_ne hlane, hzero, htaken]
      · have hskip : (lane k rest)[Function.update counts n
            (counts n - 1) k]? = some item := by
          by_cases hlane : n = k
          · subst n
            obtain ⟨m, hm⟩ := Nat.exists_eq_succ_of_ne_zero hzero
            rw [lane_cons_self, hm, List.getElem?_cons_succ] at hfront
            rw [Function.update_self, hm]
            exact hfront
          · rw [lane_cons_of_ne hlane] at hfront
            rw [Function.update_of_ne (Ne.symm hlane)]
            exact hfront
        obtain ⟨before, after, hwaiting, hothers, htaken⟩ := ih hskip
        refine ⟨before, after, ?_, hothers, ?_⟩
        · simp [waiting, hzero, hwaiting]
        · have hskipped : Function.update counts k (counts k + 1) n ≠ 0 := by
            by_cases hlane : n = k
            · subst n
              simp
            · rw [Function.update_of_ne hlane]
              exact hzero
          have hcounts : Function.update
              (Function.update counts k (counts k + 1)) n
              (Function.update counts k (counts k + 1) n - 1) =
              Function.update (Function.update counts n (counts n - 1)) k
                (Function.update counts n (counts n - 1) k + 1) := by
            by_cases hlane : n = k
            · subst n
              simp only [Function.update_self, Function.update_idem]
              congr 1
              omega
            · rw [Function.update_of_ne hlane,
                Function.update_of_ne (Ne.symm hlane),
                Function.update_comm hlane]
          simp only [waiting, hskipped, if_false, hcounts, htaken]

theorem waiting_eq_nil {counts : ι → ℕ} {log : List (ι × α)}
    (hall : ∀ k, (lane k log).length ≤ counts k) :
    waiting counts log = [] := by
  induction log generalizing counts with
  | nil => rfl
  | cons head rest ih =>
      obtain ⟨n, value⟩ := head
      have hn := hall n
      rw [lane_cons_self, List.length_cons] at hn
      have hne : counts n ≠ 0 := by omega
      simp only [waiting, hne, if_false]
      apply ih
      intro k
      by_cases hlane : n = k
      · subst n
        rw [Function.update_self]
        omega
      · have hk := hall k
        rw [lane_cons_of_ne hlane] at hk
        rwa [Function.update_of_ne (Ne.symm hlane)]

end Waiting

/-! ## The state once everything has taken effect -/

section Settles

variable {ι : Type u} {α : Type v} {σ : Type w} [DecidableEq ι]
  {effect : α → σ → σ} {counts : ι → ℕ} {log : List (ι × α)}
  {state settled : σ}

/-- Carrying out what waits, in the order of the log, leads to the state
`settled`. -/
def Settles (effect : α → σ → σ) (counts : ι → ℕ) (log : List (ι × α))
    (state settled : σ) : Prop :=
  perform effect ((waiting counts log).map Prod.snd) state = settled

theorem settles_map_iff {β : Type*} (f : β → α) {log : List (ι × β)} :
    Settles effect counts (log.map (Prod.map id f)) state settled ↔
      Settles (fun item => effect (f item)) counts log state settled := by
  unfold Settles
  rw [waiting_map, List.map_map,
    show Prod.snd ∘ Prod.map id f = f ∘ (Prod.snd : ι × β → β) from rfl,
    ← List.map_map, perform_map]

/-- The waiting items of different lanes have commuting effects. -/
def LanesCommute (effect : α → σ → σ) (counts : ι → ℕ)
    (log : List (ι × α)) : Prop :=
  ∀ first ∈ waiting counts log, ∀ second ∈ waiting counts log,
    first.1 ≠ second.1 →
      Function.Commute (effect first.2) (effect second.2)

namespace Settles

theorem afterSend (hsettles : Settles effect counts log state settled)
    {k : ι} (hle : counts k ≤ (lane k log).length) (item : α) :
    Settles effect counts (log ++ [(k, item)]) state
      (effect item settled) := by
  unfold Settles at *
  rw [waiting_append_singleton hle, List.map_append, perform_append,
    hsettles]
  rfl

theorem afterTake (hsettles : Settles effect counts log state settled)
    (hcommute : LanesCommute effect counts log) {k : ι} {item : α}
    (hfront : (lane k log)[counts k]? = some item) :
    Settles effect (Function.update counts k (counts k + 1)) log
      (effect item state) settled := by
  obtain ⟨before, after, hwaiting, hothers, htaken⟩ :=
    waiting_take hfront
  have hpast : Function.Commute
      (perform effect (before.map Prod.snd)) (effect item) := by
    apply perform_commute
    intro value hvalue
    obtain ⟨other, hmem, rfl⟩ := List.mem_map.mp hvalue
    refine hcommute other ?_ (k, item) ?_ (hothers other hmem)
    · rw [hwaiting]
      exact List.mem_append_left _ hmem
    · rw [hwaiting]
      exact List.mem_append_right _ List.mem_cons_self
  unfold Settles at *
  rw [htaken, List.map_append, perform_append, hpast state]
  rw [hwaiting, List.map_append, perform_append] at hsettles
  exact hsettles

/-- An effect carried out at once, which commutes with all that waits. -/
theorem afterDirect (hsettles : Settles effect counts log state settled)
    {item : α}
    (hcommute : ∀ other ∈ waiting counts log,
      Function.Commute (effect other.2) (effect item)) :
    Settles effect counts log (effect item state)
      (effect item settled) := by
  have hpast : Function.Commute
      (perform effect ((waiting counts log).map Prod.snd))
      (effect item) := by
    apply perform_commute
    intro value hvalue
    obtain ⟨other, hmem, rfl⟩ := List.mem_map.mp hvalue
    exact hcommute other hmem
  unfold Settles at *
  rw [hpast state, hsettles]

theorem eq_of_taken (hsettles : Settles effect counts log state settled)
    (hall : ∀ k, (lane k log).length ≤ counts k) :
    state = settled := by
  unfold Settles at hsettles
  rwa [waiting_eq_nil hall] at hsettles

end Settles

end Settles

/-! ## Results -/

section Results

variable {α : Type v} {σ : Type w} {ρ : Type*} {effect : α → σ → σ}
  {result : α → σ → ρ} {value : α → ρ} {item : α} {items : List α}
  {state : σ}

/-- Neither item notices whether the other one has taken effect. -/
structure Independent (effect : α → σ → σ) (result : α → σ → ρ)
    (first second : α) : Prop where
  commute : Function.Commute (effect first) (effect second)
  left : ∀ state, result first (effect second state) = result first state
  right : ∀ state,
    result second (effect first state) = result second state

theorem Independent.comap {β : Type*} (f : β → α) {first second : β}
    (hindependent : Independent effect result (f first) (f second)) :
    Independent (fun item => effect (f item))
      (fun item => result (f item)) first second :=
  ⟨hindependent.commute, hindependent.left, hindependent.right⟩

/-- What no effect of the items changes is the same after all of them. -/
theorem result_perform
    (hunnoticed : ∀ other ∈ items, ∀ state,
      result item (effect other state) = result item state) (state : σ) :
    result item (perform effect items state) = result item state := by
  induction items generalizing state with
  | nil => rfl
  | cons other rest ih =>
      rw [perform_cons, ih fun later hmem =>
        hunnoticed later (List.mem_cons_of_mem other hmem)]
      exact hunnoticed other List.mem_cons_self state

theorem result_perform_of_independent
    (hindependent : ∀ other ∈ items,
      Independent effect result other item) (state : σ) :
    result item (perform effect items state) = result item state :=
  result_perform (fun other hmem => (hindependent other hmem).right) state

/-- Each item has its value as result when the items take effect one after
another. -/
def Foretells (effect : α → σ → σ) (result : α → σ → ρ)
    (value : α → ρ) : List α → σ → Prop
  | [], _ => True
  | item :: rest, state =>
      result item state = value item ∧
        Foretells effect result value rest (effect item state)

theorem foretells_append {first second : List α} :
    Foretells effect result value (first ++ second) state ↔
      Foretells effect result value first state ∧
        Foretells effect result value second
          (perform effect first state) := by
  induction first generalizing state with
  | nil => simp [Foretells]
  | cons item rest ih =>
      simp only [List.cons_append, Foretells, ih, and_assoc, perform_cons]

/-- An effect that no item notices may come first. -/
theorem Foretells.afterEffect
    (hforetells : Foretells effect result value items state)
    (hindependent : ∀ other ∈ items,
      Independent effect result other item) :
    Foretells effect result value items (effect item state) := by
  induction items generalizing state with
  | nil => trivial
  | cons other rest ih =>
      obtain ⟨hresult, hrest⟩ := hforetells
      have hother := hindependent other List.mem_cons_self
      refine ⟨(hother.left state).trans hresult, ?_⟩
      rw [hother.commute state]
      exact ih hrest fun later hmem =>
        hindependent later (List.mem_cons_of_mem other hmem)

variable {ι : Type u} [DecidableEq ι] {counts : ι → ℕ}
  {log : List (ι × α)}

/-- The waiting items of different lanes do not notice each other. -/
def LanesIndependent (effect : α → σ → σ) (result : α → σ → ρ)
    (counts : ι → ℕ) (log : List (ι × α)) : Prop :=
  ∀ first ∈ waiting counts log, ∀ second ∈ waiting counts log,
    first.1 ≠ second.1 →
      Independent effect result first.2 second.2

/-- A new item is due the result it has in the settled state. -/
theorem Foretells.afterSend {settled : σ}
    (hforetells : Foretells effect result value
      ((waiting counts log).map Prod.snd) state)
    (hsettles : Settles effect counts log state settled) {k : ι}
    (hle : counts k ≤ (lane k log).length)
    (hvalue : result item settled = value item) :
    Foretells effect result value
      ((waiting counts (log ++ [(k, item)])).map Prod.snd) state := by
  rw [waiting_append_singleton hle, List.map_append, foretells_append]
  refine ⟨hforetells, ?_, trivial⟩
  rw [hsettles]
  exact hvalue

/-- The item that is taken has its value as result, and so have the others
afterwards. -/
theorem Foretells.afterTake
    (hforetells : Foretells effect result value
      ((waiting counts log).map Prod.snd) state)
    (hindependent : LanesIndependent effect result counts log) {k : ι}
    (hfront : (lane k log)[counts k]? = some item) :
    result item state = value item ∧
      Foretells effect result value
        ((waiting (Function.update counts k (counts k + 1)) log).map
          Prod.snd) (effect item state) := by
  obtain ⟨before, after, hwaiting, hothers, htaken⟩ :=
    waiting_take hfront
  have hbefore : ∀ other ∈ before.map Prod.snd,
      Independent effect result other item := by
    intro value hvalue
    obtain ⟨other, hmem, rfl⟩ := List.mem_map.mp hvalue
    refine hindependent other ?_ (k, item) ?_ (hothers other hmem)
    · rw [hwaiting]
      exact List.mem_append_left _ hmem
    · rw [hwaiting]
      exact List.mem_append_right _ List.mem_cons_self
  rw [hwaiting, List.map_append, foretells_append] at hforetells
  obtain ⟨hfirst, hresult, hrest⟩ := hforetells
  refine ⟨(result_perform_of_independent hbefore state).symm.trans
    hresult, ?_⟩
  rw [htaken, List.map_append, foretells_append]
  refine ⟨hfirst.afterEffect hbefore, ?_⟩
  rw [perform_commute (fun other hmem => (hbefore other hmem).commute)
    state]
  exact hrest

end Results

end FifoBank
