import Saio.Transition
import Mathlib.Tactic

/-!
# The first-in first-out channel

The abstract purpose of a ring: a sequence of sent items of which a prefix has
been taken.  The bound on the number of taken items is part of the type, so a
channel never delivers what was not sent, and what it delivers is a prefix of
what was sent by construction.
-/

structure FifoChannel (α : Type*) where
  sent : List α
  taken : ℕ
  taken_le : taken ≤ sent.length

namespace FifoChannel

variable {α : Type*}

inductive Action (α : Type*)
  | send (item : α)
  | take

def delivered (channel : FifoChannel α) : List α :=
  channel.sent.take channel.taken

def send (channel : FifoChannel α) (item : α) : FifoChannel α where
  sent := channel.sent ++ [item]
  taken := channel.taken
  taken_le := by
    rw [List.length_append]
    exact channel.taken_le.trans (Nat.le_add_right _ _)

def take (channel : FifoChannel α)
    (havailable : channel.taken < channel.sent.length) :
    FifoChannel α where
  sent := channel.sent
  taken := channel.taken + 1
  taken_le := havailable

def step (channel : FifoChannel α) : Action α → Option (FifoChannel α)
  | .send item => some (channel.send item)
  | .take =>
      if havailable : channel.taken < channel.sent.length then
        some (channel.take havailable)
      else none

/-- An item of a longer log is an earlier one or the last. -/
theorem get_append_cases {log : List α} {last item : α} {n : ℕ}
    (hget : (log ++ [last])[n]? = some item) :
    log[n]? = some item ∨ n = log.length ∧ item = last := by
  by_cases hold : n < log.length
  · left
    rwa [List.getElem?_append_left hold] at hget
  · have hn : n = log.length := by
      have hbound := (List.getElem?_eq_some_iff.mp hget).1
      rw [List.length_append, List.length_singleton] at hbound
      omega
    subst n
    refine Or.inr ⟨rfl, ?_⟩
    simpa [eq_comm] using hget

theorem delivered_prefix (channel : FifoChannel α) :
    channel.delivered <+: channel.sent :=
  List.take_prefix _ _

theorem delivered_eq_sent
    {channel : FifoChannel α}
    (htaken : channel.taken = channel.sent.length) :
    channel.delivered = channel.sent := by
  rw [delivered, htaken]
  exact List.take_length

theorem run_send (channel : FifoChannel α) (item : α) :
    Transition.run step channel [.send item] =
      some (channel.send item) := rfl

theorem run_take (channel : FifoChannel α)
    (havailable : channel.taken < channel.sent.length) :
    Transition.run step channel [.take] =
      some (channel.take havailable) := by
  simp [Transition.run, step, havailable]

end FifoChannel
