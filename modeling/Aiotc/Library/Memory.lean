import Mathlib.Data.List.TakeWhile
import Mathlib.Tactic.Ring

-- Memory as cells with consecutive addresses: what is read back after a write, numbers that are
-- kept with the least significant byte first, and texts that end with their first NUL.

abbrev Memory (α : Type*) :=
  ℕ → α

namespace Memory

variable {α : Type*} {m : Memory α} {a b n k : ℕ} {xs ys : List α} {z : α → Bool}

def read (a n : ℕ) (m : Memory α) : List α :=
  (List.range' a n).map m

def write (a : ℕ) (xs : List α) (m : Memory α) : Memory α :=
  fun i => if a ≤ i then (xs[i - a]?).getD (m i) else m i

@[simp]
theorem length_read : (m.read a n).length = n := by
  simp [read]

theorem read_add : m.read a (n + k) = m.read a n ++ m.read (a + n) k := by
  rw [read, ← List.range'_append_1, List.map_append]
  rfl

theorem read_succ : m.read a (n + 1) = m a :: m.read (a + 1) n := by
  simp [read, List.range'_succ]

theorem take_read (h : k ≤ n) : (m.read a n).take k = m.read a k := by
  have ⟨i, hi⟩ := Nat.exists_eq_add_of_le h
  rw [hi, read_add, List.take_left' length_read]

theorem write_of_disjoint (h : n < a ∨ a + xs.length ≤ n) : m.write a xs n = m n := by
  simp only [write]
  split
  case isFalse => rfl
  case isTrue ha =>
    rw [List.getElem?_eq_none (by omega)]
    rfl

theorem read_write (m : Memory α) : (m.write a xs).read a xs.length = xs := by
  apply List.ext_getElem (by simp)
  intro i _ hi
  simp [read, write, hi]

-- Only the cells that are written change.
theorem read_write_of_disjoint (h : b + n ≤ a ∨ a + xs.length ≤ b) :
    (m.write a xs).read b n = m.read b n := by
  apply List.map_congr_left
  intro i hi
  have hi := List.mem_range'_1.mp hi
  exact write_of_disjoint (by omega)

theorem read_write_eq (h : xs.length = n) : (m.write a xs).read a n = xs := by
  rw [← h, read_write]

-- Within what is copied from the same addresses of another memory.
theorem read_write_read {m' : Memory α} (ha : a ≤ b) (hn : b + k ≤ a + n) :
    (m.write a (m'.read a n)).read b k = m'.read b k := by
  apply List.map_congr_left
  intro i hi
  have hi := List.mem_range'_1.mp hi
  have h : a ≤ i ∧ i - a < n := by omega
  simp [write, read, h, show a + (i - a) = i by omega]

theorem write_read_apply (m m' : Memory α) (a k n : ℕ) :
    m.write a (m'.read a k) n = if a ≤ n ∧ n < a + k then m' n else m n := by
  by_cases h : a ≤ n ∧ n < a + k
  case pos =>
    have hn : n - a < k := by omega
    rw [if_pos h]
    simp [write, read, h.left, hn, show a + (n - a) = n by omega]
  case neg =>
    rw [if_neg h, write_of_disjoint]
    rw [length_read]
    omega

-- The text in a buffer of `n` cells, in which `z` tells the NULs.
def text (z : α → Bool) (a n : ℕ) (m : Memory α) : List α :=
  (m.read a n).takeWhile (!z ·)

-- The cells that `strncpy` writes.
def strncpy (z : α) (n : ℕ) (s : List α) : List α :=
  s.take n ++ List.replicate (n - s.length) z

@[simp]
theorem length_strncpy {z : α} : (strncpy z n xs).length = n := by
  simp [strncpy]
  omega

-- The text ends with the NUL at the latest.
theorem takeWhile_append_nul {x : α} (hx : z x) :
    (xs ++ x :: ys).takeWhile (!z ·) = xs.takeWhile (!z ·) := by
  induction xs
  case nil          => simp [hx]
  case cons y xs hi => simp [List.takeWhile_cons, hi]

-- A buffer whose last cell is made a NUL.
theorem text_write_nul {x : α} (hx : z x) :
    (m.write (a + n) [x]).text z a (n + 1) = (m.read a n).takeWhile (!z ·) := by
  rw [text, read_add, read_write_of_disjoint (.inl (Nat.le_refl _)),
    read_write_eq (show [x].length = 1 from rfl), takeWhile_append_nul hx]

theorem takeWhile_strncpy {x : α} (hx : z x) :
    (strncpy x n xs).takeWhile (!z ·) = (xs.take n).takeWhile (!z ·) := by
  rw [strncpy]
  cases n - xs.length
  case zero   => simp
  case succ k => exact takeWhile_append_nul hx

-- A text without a NUL is read back as far as it was written.
theorem takeWhile_strncpy_eq (h : ∀ x ∈ xs, z x = false) {x : α} (hx : z x) :
    (strncpy x n xs).takeWhile (!z ·) = xs.take n := by
  rw [takeWhile_strncpy hx, List.takeWhile_eq_self_iff]
  intro y hy
  simp [h y (List.mem_of_mem_take hy)]

-- What is written to the start of a memory full of NULs.
theorem read_write_const {x : α} : (write 0 xs fun _ => x).read 0 n = strncpy x n xs := by
  apply List.ext_getElem (by simp)
  intro i hi _
  simp only [length_read] at hi
  by_cases h : i < xs.length
  case pos => simp [read, write, strncpy, h, hi]
  case neg => simp [read, write, strncpy, List.getElem_append, h]

theorem take_strncpy {z : α} (h : k ≤ n) :
    (strncpy z n xs).take k ++ List.replicate (n - k) z = strncpy z n (xs.take k) := by
  simp only [strncpy, List.take_append, List.take_take, List.take_replicate, List.length_take,
    List.append_assoc, List.replicate_append_replicate]
  congr 2 <;> omega

section LittleEndian

variable {w : ℕ} {m : Memory UInt8}

def toLE : ℕ → ℕ → List UInt8
  | 0, _     => []
  | w + 1, x => UInt8.ofNat x :: toLE w (x / 256)

def ofLE : List UInt8 → ℕ
  | []      => 0
  | y :: ys => y.toNat + 256 * ofLE ys

@[simp]
theorem length_toLE (w x : ℕ) : (toLE w x).length = w := by
  induction w generalizing x
  case zero      => rfl
  case succ w hi => simp [toLE, hi]

theorem ofLE_toLE (w x : ℕ) : ofLE (toLE w x) = x % 256 ^ w := by
  induction w generalizing x
  case zero      => simp [toLE, ofLE, Nat.mod_one]
  case succ w hi => simp [toLE, ofLE, hi, pow_succ', Nat.mod_mul]

def store (a : ℕ) (x : BitVec (8 * w)) (m : Memory UInt8) : Memory UInt8 :=
  m.write a (toLE w x.toNat)

def load (w a : ℕ) (m : Memory UInt8) : BitVec (8 * w) :=
  BitVec.ofNat _ (ofLE (m.read a w))

theorem ofNat_ofLE_toLE (x : BitVec (8 * w)) :
    BitVec.ofNat (8 * w) (ofLE (toLE w x.toNat)) = x := by
  have h : x.toNat < 256 ^ w := by
    rw [show 256 = 2 ^ 8 from rfl, ← pow_mul]
    exact x.isLt
  rw [ofLE_toLE, Nat.mod_eq_of_lt h, BitVec.ofNat_toNat, BitVec.setWidth_eq]

theorem read_store (x : BitVec (8 * w)) : (m.store a x).read a w = toLE w x.toNat :=
  read_write_eq (length_toLE _ _)

theorem read_store_of_disjoint (x : BitVec (8 * w)) (h : b + n ≤ a ∨ a + w ≤ b) :
    (m.store a x).read b n = m.read b n :=
  read_write_of_disjoint (by simpa using h)

end LittleEndian

end Memory
