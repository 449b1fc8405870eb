import Mathlib.Tactic

/-!
# Two-level circular positions

A ring of `count` tables with `width` entries each is addressed by a pair of
a table index and an entry index.  An absolute position, which only grows, is
sent to the slot `slotAt` it occupies; one lap is `width * count` positions.

The lemmas below are the whole interface: the successor of a slot is the slot
of the next position, two positions less than a lap apart share a slot only
when they are equal, and the distance between two slots can be recovered from
their flat indices.
-/

namespace CircularSlots

/-- The slot of an absolute position. -/
def slotAt (width count position : ℕ) : ℕ × ℕ :=
  (position / width % count, position % width)

/-- The flat index of a slot. -/
def flatIndex (width : ℕ) (slot : ℕ × ℕ) : ℕ :=
  slot.1 * width + slot.2

/-- One step of the two-level walk: the entry wraps first, then the table. -/
def successor (width count : ℕ) (slot : ℕ × ℕ) : ℕ × ℕ :=
  if slot.2 = width - 1 then
    (if slot.1 = count - 1 then 0 else slot.1 + 1, 0)
  else
    (slot.1, slot.2 + 1)

variable {width count : ℕ}

theorem slotAt_fst_lt (hcount : 0 < count) (position : ℕ) :
    (slotAt width count position).1 < count :=
  Nat.mod_lt _ hcount

theorem slotAt_snd_lt (hwidth : 0 < width) (position : ℕ) :
    (slotAt width count position).2 < width :=
  Nat.mod_lt _ hwidth

@[simp] theorem slotAt_zero : slotAt width count 0 = (0, 0) := by
  simp [slotAt]

theorem flatIndex_slotAt (width count position : ℕ) :
    flatIndex width (slotAt width count position) =
      position % (width * count) := by
  simp only [flatIndex, slotAt]
  rw [Nat.mod_mul]
  ring

theorem slotAt_add_lap (hwidth : 0 < width) (position : ℕ) :
    slotAt width count (position + width * count) =
      slotAt width count position := by
  simp only [slotAt]
  rw [Nat.add_mul_div_left _ _ hwidth, Nat.add_mul_mod_self_left,
    Nat.add_mod_right]

/-- Two positions less than a lap apart share a slot only when equal. -/
theorem slotAt_injective_within_lap
    {first second : ℕ} (hle : first ≤ second)
    (hlap : second < first + width * count)
    (hslot : slotAt width count first = slotAt width count second) :
    first = second := by
  have hindex :
      first % (width * count) = second % (width * count) := by
    rw [← flatIndex_slotAt, ← flatIndex_slotAt, hslot]
  have hdvd : width * count ∣ second - first :=
    (Nat.modEq_iff_dvd' hle).mp hindex
  have hzero : second - first = 0 :=
    Nat.eq_zero_of_dvd_of_lt hdvd (by omega)
  omega

theorem slotAt_ne_within_lap
    {first second : ℕ} (hlt : first < second)
    (hlap : second < first + width * count) :
    slotAt width count first ≠ slotAt width count second := by
  intro hslot
  have := slotAt_injective_within_lap hlt.le hlap hslot
  omega

theorem succ_div_of_last
    (hwidth : 0 < width) {position : ℕ}
    (hlast : position % width = width - 1) :
    (position + 1) / width = position / width + 1 := by
  have hdecomp := Nat.div_add_mod position width
  have hnext :
      position + 1 = width * (position / width + 1) := by
    rw [Nat.mul_add, Nat.mul_one]
    omega
  rw [hnext, Nat.mul_div_cancel_left _ hwidth]

theorem succ_mod_of_last
    (hwidth : 0 < width) {position : ℕ}
    (hlast : position % width = width - 1) :
    (position + 1) % width = 0 := by
  have hdecomp := Nat.div_add_mod position width
  have hnext :
      position + 1 = width * (position / width + 1) := by
    rw [Nat.mul_add, Nat.mul_one]
    omega
  rw [hnext, Nat.mul_mod_right]

theorem succ_eq_mod_add_mul (width position : ℕ) :
    position + 1 =
      (position % width + 1) + width * (position / width) := by
  have hdecomp := Nat.div_add_mod position width
  omega

theorem succ_div_of_not_last
    (hwidth : 0 < width) {position : ℕ}
    (hlast : position % width ≠ width - 1) :
    (position + 1) / width = position / width := by
  have hbound := Nat.mod_lt position hwidth
  have hsmall : position % width + 1 < width := by omega
  conv_lhs => rw [succ_eq_mod_add_mul width position]
  rw [Nat.add_mul_div_left _ _ hwidth, Nat.div_eq_of_lt hsmall,
    Nat.zero_add]

theorem succ_mod_of_not_last
    (hwidth : 0 < width) {position : ℕ}
    (hlast : position % width ≠ width - 1) :
    (position + 1) % width = position % width + 1 := by
  have hbound := Nat.mod_lt position hwidth
  have hsmall : position % width + 1 < width := by omega
  conv_lhs => rw [succ_eq_mod_add_mul width position]
  rw [Nat.add_mul_mod_self_left, Nat.mod_eq_of_lt hsmall]

theorem succ_mod_count (hcount : 0 < count) (value : ℕ) :
    (value + 1) % count =
      if value % count = count - 1 then 0 else value % count + 1 := by
  split
  next hlast => exact succ_mod_of_last hcount hlast
  next hlast => exact succ_mod_of_not_last hcount hlast

theorem successor_of_last
    {slot : ℕ × ℕ} (hlast : slot.2 = width - 1) :
    successor width count slot =
      (if slot.1 = count - 1 then 0 else slot.1 + 1, 0) :=
  if_pos hlast

theorem successor_of_not_last
    {slot : ℕ × ℕ} (hlast : slot.2 ≠ width - 1) :
    successor width count slot = (slot.1, slot.2 + 1) :=
  if_neg hlast

/-- The two-level walk follows the absolute positions. -/
theorem successor_slotAt
    (hwidth : 0 < width) (hcount : 0 < count) (position : ℕ) :
    successor width count (slotAt width count position) =
      slotAt width count (position + 1) := by
  by_cases hlast : position % width = width - 1
  · rw [successor_of_last hlast]
    change
      (if position / width % count = count - 1 then 0
        else position / width % count + 1, 0) =
        ((position + 1) / width % count, (position + 1) % width)
    rw [succ_div_of_last hwidth hlast, succ_mod_of_last hwidth hlast,
      succ_mod_count hcount]
  · rw [successor_of_not_last hlast]
    change
      (position / width % count, position % width + 1) =
        ((position + 1) / width % count, (position + 1) % width)
    rw [succ_div_of_not_last hwidth hlast,
      succ_mod_of_not_last hwidth hlast]

/-- The circular distance formula, evaluated at two positions less than a lap
apart. -/
theorem distance_eq_sub
    {lap first second : ℕ} (hle : first ≤ second)
    (hlap : second < first + lap) :
    (if first % lap ≤ second % lap then second % lap - first % lap
      else lap - first % lap + second % lap) = second - first := by
  have hpos : 0 < lap := by omega
  have hfirst := Nat.div_add_mod first lap
  have hsecond := Nat.div_add_mod second lap
  have hfirstLt := Nat.mod_lt first hpos
  have hsecondLt := Nat.mod_lt second hpos
  have hdivLe : first / lap ≤ second / lap := Nat.div_le_div_right hle
  have hdivLt : second / lap < first / lap + 2 := by
    apply Nat.div_lt_of_lt_mul
    calc second < first + lap := hlap
      _ ≤ lap * (first / lap + 2) := by
          rw [Nat.mul_add]
          omega
  rcases (by omega :
      second / lap = first / lap ∨ second / lap = first / lap + 1)
    with hsame | hnext
  · rw [hsame] at hsecond
    rw [if_pos (by omega)]
    omega
  · rw [hnext, Nat.mul_add, Nat.mul_one] at hsecond
    rw [if_neg (by omega)]
    omega

/-! ## Slots of a ring -/

/-- A slot of a ring of `count` tables with `width` entries each. -/
def InRing (width count : ℕ) (slot : ℕ × ℕ) : Prop :=
  slot.1 < count ∧ slot.2 < width

theorem slotAt_inRing (hwidth : 0 < width) (hcount : 0 < count)
    (position : ℕ) : InRing width count (slotAt width count position) :=
  ⟨slotAt_fst_lt hcount position, slotAt_snd_lt hwidth position⟩

theorem flatIndex_lt {slot : ℕ × ℕ} (hslot : InRing width count slot) :
    flatIndex width slot < width * count := by
  have hentry := hslot.2
  calc
    flatIndex width slot < slot.1 * width + width := by
      unfold flatIndex
      omega
    _ = (slot.1 + 1) * width := by ring
    _ ≤ count * width := Nat.mul_le_mul_right width hslot.1
    _ = width * count := Nat.mul_comm count width

/-- A slot of the ring is the slot of its flat index. -/
theorem slotAt_flatIndex {slot : ℕ × ℕ}
    (hslot : InRing width count slot) :
    slotAt width count (flatIndex width slot) = slot := by
  obtain ⟨htable, hentry⟩ := hslot
  have hwidth : 0 < width := by omega
  apply Prod.ext
  · change (slot.1 * width + slot.2) / width % count = slot.1
    rw [Nat.add_comm, Nat.add_mul_div_right _ _ hwidth,
      Nat.div_eq_of_lt hentry, Nat.zero_add, Nat.mod_eq_of_lt htable]
  · change (slot.1 * width + slot.2) % width = slot.2
    rw [Nat.add_comm, Nat.add_mul_mod_self_right, Nat.mod_eq_of_lt hentry]

theorem slotAt_eq_iff {slot : ℕ × ℕ} (hslot : InRing width count slot)
    (position : ℕ) :
    slotAt width count position = slot ↔
      position % (width * count) = flatIndex width slot := by
  constructor
  · intro hequal
    rw [← hequal, flatIndex_slotAt]
  · intro hindex
    rw [← slotAt_flatIndex hslot, ← hindex]
    apply Prod.ext
    · change position / width % count =
        position % (width * count) / width % count
      rw [Nat.mod_mul_right_div_self, Nat.mod_mod]
    · change position % width = position % (width * count) % width
      rw [Nat.mod_mul_right_mod]

theorem successor_inRing {slot : ℕ × ℕ}
    (hslot : InRing width count slot) :
    InRing width count (successor width count slot) := by
  have hwidth : 0 < width := (Nat.zero_le _).trans_lt hslot.2
  have hcount : 0 < count := (Nat.zero_le _).trans_lt hslot.1
  rw [← slotAt_flatIndex hslot, successor_slotAt hwidth hcount]
  exact slotAt_inRing hwidth hcount _

/-! ## Circular intervals -/

/-- The number of steps from one slot forward to another. -/
def distance (width count : ℕ) (first second : ℕ × ℕ) : ℤ :=
  ((flatIndex width second : ℤ) - flatIndex width first) %
    (width * count : ℕ)

/-- The slots met by a walk of `steps` steps from a slot. -/
def walk (width count : ℕ) (first : ℕ × ℕ) (steps : ℕ) : List (ℕ × ℕ) :=
  (List.range steps).map fun k =>
    slotAt width count (flatIndex width first + k)

section Intervals

variable {first second slot : ℕ × ℕ} {steps : ℕ}

theorem lap_pos (hslot : InRing width count slot) : 0 < width * count :=
  (Nat.zero_le _).trans_lt (flatIndex_lt hslot)

theorem distance_nonneg (hslot : InRing width count slot) :
    0 ≤ distance width count first second := by
  have hpos := lap_pos hslot
  exact Int.emod_nonneg _ (by omega)

theorem distance_lt (hslot : InRing width count slot) :
    distance width count first second < (width * count : ℕ) := by
  have hpos := lap_pos hslot
  exact Int.emod_lt_of_pos _ (by omega)

/-- The flat index reached after a number of steps below a lap determines
that number. -/
theorem add_mod_eq_iff_distance
    (hslot : InRing width count slot) (hsteps : steps < width * count) :
    (flatIndex width first + steps) % (width * count) =
        flatIndex width slot ↔
      distance width count first slot = steps := by
  have hlt := flatIndex_lt hslot
  unfold distance
  constructor
  · intro hindex
    rw [← hindex]
    push_cast
    rw [Int.emod_sub_emod, add_sub_cancel_left]
    exact Int.emod_eq_of_lt (by omega) (by exact_mod_cast hsteps)
  · intro hdistance
    zify
    rw [← hdistance]
    push_cast
    rw [Int.add_emod_emod, add_sub_cancel]
    exact Int.emod_eq_of_lt (by omega) (by exact_mod_cast hlt)

theorem slotAt_distance (hfirst : InRing width count first)
    (hsecond : InRing width count second) :
    slotAt width count (flatIndex width first +
      (distance width count first second).toNat) = second := by
  have hnonneg : 0 ≤ distance width count first second :=
    distance_nonneg hfirst
  have hlt : distance width count first second < (width * count : ℕ) :=
    distance_lt hfirst
  rw [slotAt_eq_iff hsecond,
    add_mod_eq_iff_distance hsecond (by omega)]
  omega

/-- A walk below a lap meets exactly the slots of the circular interval that
it crosses. -/
theorem mem_walk (hfirst : InRing width count first)
    (hsteps : steps ≤ width * count) :
    slot ∈ walk width count first steps ↔
      InRing width count slot ∧
        distance width count first slot < steps := by
  have hwidth : 0 < width := (Nat.zero_le _).trans_lt hfirst.2
  have hcount : 0 < count := (Nat.zero_le _).trans_lt hfirst.1
  simp only [walk, List.mem_map, List.mem_range]
  constructor
  · rintro ⟨k, hk, rfl⟩
    have hslot := slotAt_inRing hwidth hcount (flatIndex width first + k)
    refine ⟨hslot, ?_⟩
    have hreached :=
      (add_mod_eq_iff_distance hslot (by omega)).mp
        (flatIndex_slotAt width count _).symm
    omega
  · rintro ⟨hslot, hlt⟩
    have hnonneg : 0 ≤ distance width count first slot :=
      distance_nonneg hfirst
    refine ⟨(distance width count first slot).toNat, by omega, ?_⟩
    exact slotAt_distance hfirst hslot

theorem getElem?_walk {k : ℕ}
    (hget : (walk width count first steps)[k]? = some slot) :
    slotAt width count (flatIndex width first + k) = slot := by
  obtain ⟨hk, hslot⟩ := List.getElem?_eq_some_iff.mp hget
  rw [← hslot]
  simp [walk]

theorem walk_nodup (hsteps : steps ≤ width * count) :
    (walk width count first steps).Nodup := by
  refine List.Nodup.map_on ?_ List.nodup_range
  intro k hk n hn hequal
  rw [List.mem_range] at hk hn
  rcases Nat.le_total k n with hle | hle
  · have hsame := slotAt_injective_within_lap
      (Nat.add_le_add_left hle _) (by omega) hequal
    omega
  · have hsame := slotAt_injective_within_lap
      (Nat.add_le_add_left hle _) (by omega) hequal.symm
    omega

end Intervals

/-! ## Runs of positions -/

/-- The flat indices of `count` positions from `first` on. -/
def indices (lap first count : ℕ) : List ℕ :=
  (List.range count).map fun n => (first + n) % lap

section Runs

variable {lap first gap held more index : ℕ}

theorem mem_indices :
    index ∈ indices lap first held ↔
      ∃ n < held, (first + n) % lap = index := by
  simp [indices]

theorem indices_congr {other : ℕ} (hequal : first % lap = other % lap) :
    indices lap first held = indices lap other held := by
  unfold indices
  apply List.map_congr_left
  intro n _
  rw [Nat.add_mod, hequal, ← Nat.add_mod]

theorem indices_succ :
    indices lap first (held + 1) =
      first % lap :: indices lap (first + 1) held := by
  unfold indices
  rw [List.range_succ_eq_map, List.map_cons, List.map_map]
  refine congrArg (List.cons _) (List.map_congr_left ?_)
  intro n _
  rw [Function.comp_apply, Nat.succ_eq_add_one, Nat.add_right_comm,
    Nat.add_assoc]

/-- A later run that ends within a lap of an earlier one does not meet it. -/
theorem indices_disjoint_of_le (hheld : held ≤ gap)
    (hlap : gap + more ≤ lap) (hmem : index ∈ indices lap (first + gap) more) :
    index ∉ indices lap first held := by
  intro hearlier
  obtain ⟨m, hm, hlater⟩ := mem_indices.mp hmem
  obtain ⟨n, hn, hequal⟩ := mem_indices.mp hearlier
  have hmod : first + (gap + m) ≡ first + n [MOD lap] := by
    unfold Nat.ModEq
    rw [← Nat.add_assoc, hlater, hequal]
  have hsame := Nat.ModEq.eq_of_lt_of_lt
    (Nat.ModEq.add_left_cancel' first hmod) (by omega) (by omega)
  omega

/-- A later run that does not meet an earlier one ends within a lap of it. -/
theorem le_of_indices_disjoint (hlap : 0 < lap) (hheld : 0 < held)
    (hmore : 0 < more)
    (hwithin : gap ≤ lap ∨ lap ≤ held)
    (hdisjoint : ∀ index ∈ indices lap (first + gap) more,
      index ∉ indices lap first held) :
    gap + more ≤ lap := by
  by_contra hpast
  rcases hwithin with hgap | hfull
  · apply hdisjoint (first % lap)
    · refine mem_indices.mpr ⟨lap - gap, by omega, ?_⟩
      have hround : first + gap + (lap - gap) = first + lap := by omega
      rw [hround, Nat.add_mod_right]
    · exact mem_indices.mpr ⟨0, hheld, rfl⟩
  · apply hdisjoint ((first + gap) % lap)
    · exact mem_indices.mpr ⟨0, hmore, rfl⟩
    · refine mem_indices.mpr ⟨gap % lap, ?_, ?_⟩
      · exact (Nat.mod_lt gap hlap).trans_le hfull
      · rw [Nat.add_mod_mod]

end Runs

end CircularSlots
