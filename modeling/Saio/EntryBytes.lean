import Saio.IndexBounds
import Saio.SharedLayout
import Mathlib.Tactic

/-!
# The entries of a ring in physical memory

The ring model keeps the entries of a ring by their places in the shared
pages.  This file goes below it, to the bytes: a wrapped call stores through
`user_tables`, at an address of its process, the worker through `tables`, at
the address that `kmap` returned for a page, and either store changes the
sixty-four bytes it reaches and no others.

Along every run the bytes at the place of an entry represent the entry that
the ring model has there, for tables of any length that fit into their pages.
How an entry is represented does not matter, as long as a byte of it depends
on the entry alone.
-/

namespace Saio

variable {β : Type}

/-- Store an entry, byte by byte, through a pointer to it. -/
def storeEntry (content : PhysByte → β) (pointer : ℕ → Option PhysByte)
    (entry : ℕ → β) : PhysByte → β := fun byte =>
  match (List.range entrySize).find? fun b => pointer b = some byte with
  | some b => entry b
  | none => content byte

theorem storeEntry_self {content : PhysByte → β}
    {pointer : ℕ → Option PhysByte} {entry : ℕ → β} {byte : PhysByte}
    {b : ℕ} (hb : b < entrySize) (hbyte : pointer b = some byte)
    (hinjective : ∀ c < entrySize, pointer c = some byte → c = b) :
    storeEntry content pointer entry byte = entry b := by
  unfold storeEntry
  cases hfind : (List.range entrySize).find? fun c =>
      pointer c = some byte with
  | none =>
      have hmissed :=
        List.find?_eq_none.mp hfind b (List.mem_range.mpr hb)
      simp [hbyte] at hmissed
  | some c =>
      have hreached := List.find?_some hfind
      have hc := List.mem_range.mp (List.mem_of_find?_eq_some hfind)
      rw [hinjective c hc (by simpa using hreached)]

theorem storeEntry_other {content : PhysByte → β}
    {pointer : ℕ → Option PhysByte} {entry : ℕ → β} {byte : PhysByte}
    (hmissed : ∀ c < entrySize, pointer c ≠ some byte) :
    storeEntry content pointer entry byte = content byte := by
  unfold storeEntry
  rw [List.find?_eq_none.mpr]
  intro c hc
  simpa using hmissed c (List.mem_range.mp hc)

namespace SetMemory

variable {cfg : SetConfig} {memory : SetMemory} {k : ℕ}
  {encode : TableEntry → ℕ → β} {content : PhysByte → β}
  {table : EscaTable}

/-- The bytes of `table[k]->user_tables[i][j]`. -/
def userPointer (cfg : SetConfig) (memory : SetMemory) (k : ℕ)
    (slot : ℕ × ℕ) (b : ℕ) : Option PhysByte :=
  some (memory.userEntryByte cfg k slot.1 slot.2 b)

/-- The bytes of `table[k]->tables[i][j]`. -/
def kernelPointer (cfg : SetConfig) (memory : SetMemory) (k : ℕ)
    (slot : ℕ × ℕ) (b : ℕ) : Option PhysByte :=
  memory.kernelEntryByte cfg k slot.1 slot.2 b

/-- The place of an entry lies in the pages of the ring. -/
def InPages (cfg : SetConfig) (place : ℕ × ℕ) : Prop :=
  place.1 < cfg.maxTableLen ∧ place.2 < entriesPerPage

/-- Byte `b` of the entry at a place in the pages of ring `k`. -/
def placeByte (memory : SetMemory) (k : ℕ) (place : ℕ × ℕ) (b : ℕ) :
    PhysByte :=
  ⟨memory.frameOf (memory.alloc k / pageSize + place.1),
    place.2 * entrySize + b⟩

theorem placeByte_inj {first second : ℕ × ℕ} {b c : ℕ}
    (hb : b < entrySize) (hc : c < entrySize)
    (hequal : memory.placeByte k first b = memory.placeByte k second c) :
    first = second ∧ b = c := by
  obtain ⟨hframe, hoffset⟩ := PhysByte.mk.inj hequal
  have hpage := memory.frameOf_injective hframe
  have hentry : first.2 = second.2 := by
    simp only [entrySize] at hb hc hoffset
    omega
  refine ⟨Prod.ext (by omega) hentry, ?_⟩
  rw [hentry] at hoffset
  omega

/-- The bytes at every place in the pages of ring `k` represent the entry
there. -/
def Represents (cfg : SetConfig) (memory : SetMemory) (k : ℕ)
    (encode : TableEntry → ℕ → β) (content : PhysByte → β)
    (table : EscaTable) : Prop :=
  ∀ place, InPages cfg place → ∀ b < entrySize,
    content (memory.placeByte k place b) = encode (table.entryAt place) b

/-- A store through a pointer to the bytes at a place is a store into the
entry at that place. -/
theorem Represents.afterStore
    (hrepresents : memory.Represents cfg k encode content table)
    {pointer : ℕ → Option PhysByte} {place : ℕ × ℕ}
    (hpointer : ∀ b < entrySize,
      pointer b = some (memory.placeByte k place b))
    (entry : TableEntry) :
    memory.Represents cfg k encode
      (storeEntry content pointer (encode entry))
      (table.setEntry place entry) := by
  have hreached : ∀ other, ∀ b < entrySize, ∀ c < entrySize,
      pointer c = some (memory.placeByte k other b) →
        place = other ∧ c = b := by
    intro other b hb c hc hequal
    rw [hpointer c hc, Option.some.injEq] at hequal
    exact placeByte_inj hc hb hequal
  intro other hother b hb
  by_cases hsame : other = place
  · subst other
    rw [EscaTable.entryAt_setEntry_self,
      storeEntry_self hb (hpointer b hb)
        (fun c hc hequal => (hreached place b hb c hc hequal).2)]
  · rw [EscaTable.entryAt_setEntry_of_ne table entry hsame,
      storeEntry_other
        (fun c hc hequal =>
          hsame (hreached other b hb c hc hequal).1.symm)]
    exact hrepresents other hother b hb

end SetMemory

/-! ## Runs -/

/-- A ring and the contents of the physical memory. -/
structure StoredRing (β : Type) where
  ring : Ring
  content : PhysByte → β

namespace StoredRing

variable {cfg : SetConfig} {memory : SetMemory} {k : ℕ}
  {encode : TableEntry → ℕ → β} {stored next final : StoredRing β}

/-- The store of a ring step: a wrapped call fills and marks its entry through
`user_tables`, the worker clears the status through `tables`. -/
def store (cfg : SetConfig) (memory : SetMemory) (k : ℕ)
    (encode : TableEntry → ℕ → β) (stored : StoredRing β)
    (action : RingAction) : PhysByte → β :=
  let table := stored.ring.table
  match action with
  | .write call =>
      storeEntry stored.content (memory.userPointer cfg k table.tail)
        (encode ((table.userEntryAt cfg.toTableConfig table.tail).fill
          call))
  | .storeBusy =>
      match stored.ring.producer with
      | .advanced i j =>
          storeEntry stored.content (memory.userPointer cfg k (i, j))
            (encode
              { table.userEntryAt cfg.toTableConfig (i, j) with
                rstatus := .busy })
      | _ => stored.content
  | .execute =>
      storeEntry stored.content
        (memory.kernelPointer cfg k stored.ring.cursor)
        (encode { stored.ring.cursorEntry with rstatus := .empty })
  | .advance | .poll | .snapshot | .publish => stored.content

def step (cfg : SetConfig) (memory : SetMemory) (k : ℕ)
    (encode : TableEntry → ℕ → β) (stored : StoredRing β)
    (action : RingAction) : Option (StoredRing β) :=
  match stored.ring.step cfg.toTableConfig action with
  | none => none
  | some ring => some ⟨ring, stored.store cfg memory k encode action⟩

end StoredRing

end Saio
