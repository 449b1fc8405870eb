import Mathlib.Tactic

/-!
# A bump allocator that starts over at the end of its pool

Blocks are taken from a pool one behind the other.  A block that would pass
the end is placed at the beginning instead, whatever lies there.

A row of blocks that is no longer than the pool starts over at most once.  A
block is not overwritten as long as the blocks taken since then, the next one
and one more for the gap at the end of the pool fit into it together.
-/

namespace BumpPool

/-- Where a block of `count` units is placed. -/
def place (size offset count : ℕ) : ℕ :=
  if offset + count > size then 0 else offset

variable {size offset count : ℕ}

theorem place_of_fits (hfits : offset + count ≤ size) :
    place size offset count = offset :=
  if_neg (Nat.not_lt.mpr hfits)

theorem place_of_passes (hpasses : size < offset + count) :
    place size offset count = 0 :=
  if_pos hpasses

theorem place_add_le (hcount : count ≤ size) :
    place size offset count + count ≤ size := by
  unfold place
  split
  next => rw [Nat.zero_add]; exact hcount
  next hfits => exact Nat.not_lt.mp hfits

/-! ## A row of blocks -/

/-- How many blocks of a row are placed before the pool starts over. -/
def fitting (size : ℕ) : ℕ → List ℕ → ℕ
  | _, [] => 0
  | offset, count :: rest =>
      if offset + count > size then 0
      else fitting size (offset + count) rest + 1

variable {counts : List ℕ}

theorem fitting_of_passes {rest : List ℕ}
    (hpasses : size < offset + count) :
    fitting size offset (count :: rest) = 0 :=
  if_pos hpasses

theorem fitting_of_fits {rest : List ℕ}
    (hfits : offset + count ≤ size) :
    fitting size offset (count :: rest) =
      fitting size (offset + count) rest + 1 :=
  if_neg (Nat.not_lt.mpr hfits)

theorem fitting_le : fitting size offset counts ≤ counts.length := by
  induction counts generalizing offset with
  | nil => exact le_rfl
  | cons count rest ih =>
      rcases Nat.lt_or_ge size (offset + count) with hpasses | hfits
      · rw [fitting_of_passes hpasses]
        exact Nat.zero_le _
      · rw [fitting_of_fits hfits]
        exact Nat.succ_le_succ ih

theorem offset_le_of_fitting (hpos : 0 < fitting size offset counts) :
    offset ≤ size := by
  cases counts with
  | nil => exact absurd hpos (Nat.lt_irrefl 0)
  | cons count rest =>
      rcases Nat.lt_or_ge size (offset + count) with hpasses | hfits
      · rw [fitting_of_passes hpasses] at hpos
        exact absurd hpos (Nat.lt_irrefl 0)
      · exact (Nat.le_add_right offset count).trans hfits

theorem sum_take_fitting (hoffset : offset ≤ size) :
    offset + (counts.take (fitting size offset counts)).sum ≤ size := by
  induction counts generalizing offset with
  | nil => simpa using hoffset
  | cons count rest ih =>
      rcases Nat.lt_or_ge size (offset + count) with hpasses | hfits
      · rw [fitting_of_passes hpasses]
        simpa using hoffset
      · rw [fitting_of_fits hfits, List.take_succ_cons, List.sum_cons,
          ← Nat.add_assoc]
        exact ih hfits

theorem passes_of_drop_fitting {rest : List ℕ}
    (hdrop : counts.drop (fitting size offset counts) = count :: rest) :
    size <
      offset + (counts.take (fitting size offset counts)).sum + count := by
  induction counts generalizing offset with
  | nil => simp at hdrop
  | cons first others ih =>
      rcases Nat.lt_or_ge size (offset + first) with hpasses | hfits
      · rw [fitting_of_passes hpasses] at hdrop ⊢
        simp only [List.drop_zero, List.cons.injEq] at hdrop
        simpa [hdrop.1] using hpasses
      · rw [fitting_of_fits hfits] at hdrop ⊢
        rw [List.take_succ_cons, List.sum_cons, ← Nat.add_assoc]
        exact ih hdrop

/-! ## How long a block lasts -/

/-- A block lies behind the offset, with at most `age` blocks of at most
`bound` units from its start on; or the pool has started over since, and the
block lies ahead of the offset. -/
def Behind (size bound offset age start count : ℕ) : Prop :=
  (start + count ≤ offset ∧ offset ≤ start + age * bound) ∨
    (start + count ≤ size ∧ offset + size ≤ start + (age + 1) * bound)

section Behind

variable {bound age start new : ℕ}

theorem behind_place (hcount : count ≤ bound) :
    Behind size bound (place size offset count + count) 1
      (place size offset count) count := by
  left
  omega

theorem Behind.apart
    (hbehind : Behind size bound offset age start count)
    (hnew : new ≤ bound) (hroom : (age + 2) * bound ≤ size) :
    start + count ≤ place size offset new ∨
      place size offset new + new ≤ start := by
  unfold Behind at hbehind
  rw [Nat.add_mul] at hbehind hroom
  rcases Nat.lt_or_ge size (offset + new) with hpasses | hfits
  · rw [place_of_passes hpasses]
    omega
  · rw [place_of_fits hfits]
    omega

/-- The next block leaves an earlier one behind the offset, or ahead of it
once the pool starts over. -/
theorem Behind.push
    (hbehind : Behind size bound offset age start count)
    (hoffset : offset ≤ size) (hnew : new ≤ bound) :
    Behind size bound (place size offset new + new) (age + 1) start
      count := by
  unfold Behind at *
  rw [Nat.add_mul] at hbehind
  rw [Nat.add_mul, Nat.add_mul, Nat.add_mul]
  rcases Nat.lt_or_ge size (offset + new) with hpasses | hfits
  · rw [place_of_passes hpasses]
    omega
  · rw [place_of_fits hfits]
    omega

end Behind

/-- As `Behind`, by the units `used` from the start of the block on; where the
pool has started over, it has left out at most `gap` of them at its end. -/
def Trails (size gap offset used start count : ℕ) : Prop :=
  (start + count ≤ offset ∧ offset ≤ start + used) ∨
    (start + count ≤ size ∧ offset + size ≤ start + used + gap)

section Trails

variable {gap used start new : ℕ}

theorem trails_place :
    Trails size gap (place size offset count + count) count
      (place size offset count) count :=
  Or.inl ⟨le_rfl, le_rfl⟩

theorem Trails.mono {more : ℕ}
    (htrails : Trails size gap offset used start count)
    (hmore : used ≤ more) :
    Trails size gap offset more start count := by
  unfold Trails at *
  omega

theorem Trails.apart
    (htrails : Trails size gap offset used start count)
    (hnew : new ≤ gap) (hroom : used + new + gap ≤ size) :
    start + count ≤ place size offset new ∨
      place size offset new + new ≤ start := by
  unfold Trails at htrails
  rcases Nat.lt_or_ge size (offset + new) with hpasses | hfits
  · rw [place_of_passes hpasses]
    omega
  · rw [place_of_fits hfits]
    omega

theorem Trails.push
    (htrails : Trails size gap offset used start count)
    (hoffset : offset ≤ size) (hnew : new ≤ gap) :
    Trails size gap (place size offset new + new) (used + new) start
      count := by
  unfold Trails at *
  rcases Nat.lt_or_ge size (offset + new) with hpasses | hfits
  · rw [place_of_passes hpasses]
    omega
  · rw [place_of_fits hfits]
    omega

end Trails

end BumpPool
