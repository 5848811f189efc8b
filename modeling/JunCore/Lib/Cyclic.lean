/-
  Linear memory and cyclic windows.

  A memory is a function from addresses.  `readAt` and `writeAt` move whole blocks, as `memmove`
  does.  A `window` is what a ring of `N` cells, placed at address `b`, holds from cell `s` on: it
  runs over the end and comes back at the beginning.  `scatter` writes a block into the ring the
  same way, as two linear pieces.

  The two rules used on a ring buffer are `window_scatter` (what was written is what is there) and
  `window_scatter_before` (the cells before it are left alone, as long as the ring is not overrun).
-/
import Mathlib.Data.List.GetD

namespace Cyclic

variable {α : Type*}

/-! ## Blocks -/

/-- The `n` cells from `p` on. -/
def readAt (m : Nat → α) (p n : Nat) : List α := (List.range n).map fun i => m (p + i)

/-- The memory after the block `l` has been written at `p`. -/
def writeAt (m : Nat → α) (p : Nat) (l : List α) (a : Nat) : α :=
  if p ≤ a then l.getD (a - p) (m a) else m a

@[simp] theorem length_readAt (m : Nat → α) (p n : Nat) : (readAt m p n).length = n := by
  simp [readAt]

theorem writeAt_inside (m : Nat → α) (p : Nat) (l : List α) {i : Nat} (h : i < l.length) :
    writeAt m p l (p + i) = l[i] := by
  simp [writeAt, h]

theorem writeAt_outside (m : Nat → α) {p : Nat} {l : List α} {a : Nat}
    (h : a < p ∨ p + l.length ≤ a) : writeAt m p l a = m a := by
  unfold writeAt
  split
  · rw [List.getD_eq_default _ _ (by omega)]
  · rfl

@[simp] theorem writeAt_nil (m : Nat → α) (p : Nat) : writeAt m p [] = m := by
  funext a
  exact writeAt_outside m (by simp; omega)

theorem readAt_add (m : Nat → α) (p k n : Nat) :
    readAt m p (k + n) = readAt m p k ++ readAt m (p + k) n := by
  unfold readAt
  rw [List.range_add, List.map_append, List.map_map]
  congr 1
  apply List.map_congr_left
  intro i _
  simp only [Function.comp_apply, Nat.add_assoc]

/-- What was written is what is there. -/
theorem readAt_writeAt (m : Nat → α) (p : Nat) (l : List α) :
    readAt (writeAt m p l) p l.length = l := by
  apply List.ext_getElem (by simp)
  intro i h₁ h₂
  simp only [readAt, List.getElem_map, List.getElem_range]
  exact writeAt_inside m p l h₂

/-- The cells before it are left alone. -/
theorem readAt_writeAt_before (m : Nat → α) {p q n : Nat} (l : List α) (h : p + n ≤ q) :
    readAt (writeAt m q l) p n = readAt m p n := by
  apply List.map_congr_left
  intro i hi
  have hi : i < n := List.mem_range.mp hi
  exact writeAt_outside m (Or.inl (by omega))

/-! ## Windows -/

/-- The `len` cells from cell `s` on, of a ring of `N` cells at address `b`. -/
def window (m : Nat → α) (b N s len : Nat) : List α :=
  (List.range len).map fun i => m (b + (s + i) % N)

@[simp] theorem length_window (m : Nat → α) (b N s len : Nat) :
    (window m b N s len).length = len := by simp [window]

theorem window_congr (m : Nat → α) (b : Nat) {N s s' : Nat} (h : s % N = s' % N) (len : Nat) :
    window m b N s len = window m b N s' len := by
  apply List.map_congr_left
  intro i _
  rw [Nat.add_mod s i, h, ← Nat.add_mod]

theorem window_add (m : Nat → α) (b N s k len : Nat) :
    window m b N s (k + len) = window m b N s k ++ window m b N (s + k) len := by
  unfold window
  rw [List.range_add, List.map_append, List.map_map]
  congr 1
  apply List.map_congr_left
  intro i _
  simp only [Function.comp_apply, Nat.add_assoc]

theorem take_window (m : Nat → α) (b N s : Nat) {n len : Nat} (h : n ≤ len) :
    (window m b N s len).take n = window m b N s n := by
  obtain ⟨k, rfl⟩ := Nat.exists_eq_add_of_le h
  rw [window_add, List.take_left' (length_window ..)]

theorem drop_window (m : Nat → α) (b N s : Nat) {n len : Nat} (h : n ≤ len) :
    (window m b N s len).drop n = window m b N (s + n) (len - n) := by
  obtain ⟨k, rfl⟩ := Nat.exists_eq_add_of_le h
  rw [window_add, List.drop_left' (length_window ..), Nat.add_sub_cancel_left]

/-- A window that does not run over the end is a block. -/
theorem window_eq_readAt (m : Nat → α) (b : Nat) {N s len : Nat} (h : s + len ≤ N) :
    window m b N s len = readAt m (b + s) len := by
  apply List.map_congr_left
  intro i hi
  have hi : i < len := List.mem_range.mp hi
  rw [Nat.mod_eq_of_lt (by omega), Nat.add_assoc]

/-! ## Writing into the ring -/

/-- The memory after the block `l` has been written into the ring from cell `p` on, going back to the
    beginning where the ring ends. -/
def scatter (m : Nat → α) (b N p : Nat) (l : List α) : Nat → α :=
  writeAt (writeAt m (b + p) (l.take (N - p))) b (l.drop (N - p))

variable {m : Nat → α} {b N p : Nat} {l : List α}

theorem scatter_inside (hp : p < N) (hl : l.length ≤ N) {i : Nat} (hi : i < l.length) :
    scatter m b N p l (b + (p + i) % N) = l[i] := by
  by_cases hw : p + i < N
  · -- in the first piece, and the second one ends before `p`
    rw [Nat.mod_eq_of_lt hw, scatter, writeAt_outside _ (by rw [List.length_drop]; omega),
      ← Nat.add_assoc, writeAt_inside _ _ _ (by rw [List.length_take]; omega), List.getElem_take]
  · have hmod : (p + i) % N = p + i - N := by
      rw [Nat.mod_eq_sub_mod (by omega), Nat.mod_eq_of_lt (by omega)]
    rw [hmod, scatter, writeAt_inside _ _ _ (by rw [List.length_drop]; omega), List.getElem_drop]
    congr 1
    omega

theorem scatter_outside (hp : p < N) {i : Nat} (hi : l.length ≤ i) (hN : i < N) :
    scatter m b N p l (b + (p + i) % N) = m (b + (p + i) % N) := by
  by_cases hw : p + i < N
  · rw [Nat.mod_eq_of_lt hw, scatter, writeAt_outside _ (by rw [List.length_drop]; omega),
      writeAt_outside _ (by rw [List.length_take]; omega)]
  · have hmod : (p + i) % N = p + i - N := by
      rw [Nat.mod_eq_sub_mod (by omega), Nat.mod_eq_of_lt (by omega)]
    rw [hmod, scatter, writeAt_outside _ (by rw [List.length_drop]; omega),
      writeAt_outside _ (by omega)]

/-- What was written is what is there. -/
theorem window_scatter (hp : p < N) (hl : l.length ≤ N) :
    window (scatter m b N p l) b N p l.length = l := by
  apply List.ext_getElem (by simp)
  intro i h₁ h₂
  simp only [window, List.getElem_map, List.getElem_range]
  exact scatter_inside hp hl h₂

/-- The cells before it are left alone. -/
theorem window_scatter_before (hp : p < N) {s len : Nat} (hs : (s + len) % N = p)
    (hl : len + l.length ≤ N) : window (scatter m b N p l) b N s len = window m b N s len := by
  apply List.map_congr_left
  intro i hi
  have hi : i < len := List.mem_range.mp hi
  -- seen from `p`, cell `s + i` comes `N - len + i` cells later
  have hcell : (s + i) % N = (p + (N - len + i)) % N := by
    rw [← hs, Nat.mod_add_mod, show s + len + (N - len + i) = s + i + N by omega,
      Nat.add_mod_right]
  rw [hcell]
  exact scatter_outside hp (by omega) (by omega)

end Cyclic
