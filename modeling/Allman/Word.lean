/-! Offsets, lines and columns that arrive from outside are 64-bit words. A sum
that leaves the range of a word starts again at zero, and a difference below zero
counts down from the top; only the operations here do so. -/

namespace Allman.Word

/-- The number of words, which is the 64th power of two. -/
abbrev size : Nat := 0x10000000000000000

def add (a b : Nat) : Nat := (a + b) % size

def sub (a b : Nat) : Nat := (a + (size - b % size)) % size

theorem sub_of_le {a b : Nat} (fits : a < size) (ordered : b ≤ a) : sub a b = a - b := by
  have small : b % size = b := Nat.mod_eq_of_lt (by omega)
  rw [sub, small, show a + (size - b) = (a - b) + size by omega, Nat.add_mod_right]
  exact Nat.mod_eq_of_lt (by omega)

theorem sub_one {n : Nat} (fits : n < size) : sub (n + 1) 1 = n := by
  have small : 1 % size = 1 := Nat.mod_eq_of_lt (by decide)
  rw [sub, small, show n + 1 + (size - 1) = n + size by omega, Nat.add_mod_right]
  exact Nat.mod_eq_of_lt fits

end Allman.Word
