import Saio.Wrappers
import Mathlib.Tactic

/-!
# Copied bytes

The wrappers that copy their arguments use `memcpy` into a pool.  A later
reader of the region sees the copied bytes as long as no other copy touches
it.
-/

namespace Saio

def readBytes (pool : ℕ → UInt8) (start count : ℕ) : List UInt8 :=
  (List.range count).map fun n => pool (start + n)

variable {pool : ℕ → UInt8} {start count offset : ℕ} {buf : List UInt8}

@[simp] theorem readBytes_length :
    (readBytes pool start count).length = count := by
  simp [readBytes]

@[simp] theorem readBytes_zero : readBytes pool start 0 = [] := rfl

theorem readBytes_congr {other : ℕ → UInt8}
    (hsame : ∀ n, start ≤ n → n < start + count → other n = pool n) :
    readBytes other start count = readBytes pool start count := by
  unfold readBytes
  apply List.map_congr_left
  intro n hmem
  have hn := List.mem_range.mp hmem
  exact hsame (start + n) (by omega) (by omega)

theorem readBytes_add (more : ℕ) :
    readBytes pool start (count + more) =
      readBytes pool start count ++ readBytes pool (start + count) more := by
  unfold readBytes
  rw [List.range_add, List.map_append, List.map_map]
  simp [Function.comp_def, Nat.add_assoc]

theorem memcpy_outside {n : ℕ}
    (hn : n < offset ∨ offset + buf.length ≤ n) :
    memcpy pool offset buf n = pool n := by
  unfold memcpy
  split
  next hle =>
    rw [List.getElem?_eq_none (by omega)]
    rfl
  next => rfl

theorem memcpy_inside {n : ℕ} (hn : n < buf.length) :
    memcpy pool offset buf (offset + n) = buf[n] := by
  unfold memcpy
  rw [if_pos (Nat.le_add_right offset n), Nat.add_sub_cancel_left,
    List.getElem?_eq_getElem hn]
  rfl

@[simp] theorem memcpy_nil : memcpy pool offset [] = pool := by
  funext n
  exact memcpy_outside (Nat.lt_or_ge n offset)

/-- Two copies next to each other are one. -/
theorem memcpy_append (more : List UInt8) :
    memcpy (memcpy pool offset buf) (offset + buf.length) more =
      memcpy pool offset (buf ++ more) := by
  funext n
  rcases Nat.lt_or_ge n (offset + buf.length) with hbefore | hbehind
  · rw [memcpy_outside (Or.inl hbefore)]
    unfold memcpy
    split
    next hle => rw [List.getElem?_append_left (by omega)]
    next => rfl
  · unfold memcpy
    rw [if_pos hbehind, if_pos (by omega), if_pos (by omega),
      List.getElem?_append_right (by omega),
      List.getElem?_eq_none (l := buf) (by omega), Nat.sub_sub]
    rfl

theorem readBytes_memcpy_self :
    readBytes (memcpy pool offset buf) offset buf.length = buf := by
  unfold readBytes
  apply List.ext_getElem
  · simp
  · intro n hleft hright
    rw [List.getElem_map, List.getElem_range]
    exact memcpy_inside hright

/-- A copy elsewhere leaves a region alone. -/
theorem readBytes_memcpy_of_disjoint
    (hdisjoint : start + count ≤ offset ∨ offset + buf.length ≤ start) :
    readBytes (memcpy pool offset buf) start count =
      readBytes pool start count := by
  apply readBytes_congr
  intro n hlow hhigh
  exact memcpy_outside (by omega)

end Saio
