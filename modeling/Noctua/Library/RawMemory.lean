import Mathlib.Data.List.Basic

/-- Byte-addressed memory that remembers which addresses have been written. -/
structure RawMemory where
  cell : Nat → UInt8
  written : List Nat := []

namespace RawMemory
set_option autoImplicit true

def memcpy (m : RawMemory) (dst : Nat) (src : List UInt8) : RawMemory where
  cell a := if dst ≤ a then (src[a - dst]?).getD (m.cell a) else m.cell a
  written := m.written ++ List.range' dst src.length

def read (m : RawMemory) (src n : Nat) : List UInt8 := (List.range' src n).map m.cell

/-- Every write so far went to the block of `size` bytes at `base`. -/
def WritesInside (m : RawMemory) (base size : Nat) : Prop :=
  ∀ a ∈ m.written, base ≤ a ∧ a < base + size

instance (m : RawMemory) (base size : Nat) : Decidable (m.WritesInside base size) :=
  inferInstanceAs (Decidable (∀ a ∈ m.written, _))

@[simp] theorem read_length (m : RawMemory) (src n : Nat) : (m.read src n).length = n := by
  rw [read, List.length_map, List.length_range']

theorem read_add (m : RawMemory) (src n k : Nat) :
    m.read src (n + k) = m.read src n ++ m.read (src + n) k := by
  rw [read, read, read, ← List.map_append, List.range'_append_1]

theorem read_memcpy (m : RawMemory) (dst : Nat) (src : List UInt8) :
    (m.memcpy dst src).read dst src.length = src := by
  apply List.ext_getElem?
  intro i
  by_cases hi : i < src.length
  · simp only [read, memcpy, List.getElem?_map, List.getElem?_range', hi, Option.map_some,
      Nat.one_mul, Nat.le_add_right, Nat.add_sub_cancel_left, List.getElem?_eq_getElem,
      Option.getD_some, ↓reduceIte]
  · rw [List.getElem?_eq_none (by rw [read_length]; omega), List.getElem?_eq_none (by omega)]

theorem read_memcpy_of_disjoint (m : RawMemory) (src : List UInt8)
    (h : a + n ≤ dst ∨ dst + src.length ≤ a) : (m.memcpy dst src).read a n = m.read a n := by
  apply List.map_congr_left
  intro b hb
  obtain ⟨hle, hlt⟩ := List.mem_range'_1.1 hb
  simp only [memcpy]
  split
  · rw [List.getElem?_eq_none (by omega), Option.getD_none]
  · rfl

theorem read_memcpy_extend (m : RawMemory) (src n : Nat) (bs : List UInt8) :
    (m.memcpy (src + n) bs).read src (n + bs.length) = m.read src n ++ bs := by
  rw [read_add, read_memcpy_of_disjoint _ _ (.inl (Nat.le_refl _)), read_memcpy]

theorem writesInside_memcpy : (memcpy m dst src).WritesInside base size ↔
    m.WritesInside base size ∧ (src = [] ∨ base ≤ dst ∧ dst + src.length ≤ base + size) := by
  simp only [WritesInside, memcpy, List.mem_append, List.mem_range'_1]
  constructor
  · intro h
    refine ⟨fun a ha => h a (.inl ha), ?_⟩
    cases src with
    | nil => exact .inl rfl
    | cons b bs =>
      have hl : (b :: bs).length = bs.length + 1 := List.length_cons
      have hf := h dst (.inr (by omega))
      have ht := h (dst + bs.length) (.inr (by omega))
      exact .inr (by omega)
  · rintro ⟨h, hs⟩ a (ha | ha)
    · exact h a ha
    · rcases hs with rfl | hs
      · simp only [List.length_nil] at ha
        omega
      · omega

theorem writesInside_fresh (cell : Nat → UInt8) (base size : Nat) :
    (RawMemory.mk cell []).WritesInside base size := by
  intro a ha
  cases ha

end RawMemory
