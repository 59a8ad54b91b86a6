import Mathlib.Algebra.Order.Ring.Nat
import Mathlib.Data.List.GetD

namespace Library.Bytes

abbrev Mem := Nat → UInt8

def read (m : Mem) (a n : Nat) : List UInt8 := (List.range n).map fun i => m (a + i)

def write (m : Mem) (a : Nat) (bs : List UInt8) : Mem :=
  fun x => if a ≤ x ∧ x < a + bs.length then bs.getD (x - a) 0 else m x

def wordBytes (v : Nat) : List UInt8 :=
  [UInt8.ofNat v, UInt8.ofNat (v / 2 ^ 8), UInt8.ofNat (v / 2 ^ 16), UInt8.ofNat (v / 2 ^ 24)]

def readWord (m : Mem) (i : Nat) : Nat :=
  (m (4 * i)).toNat + 2 ^ 8 * (m (4 * i + 1)).toNat + 2 ^ 16 * (m (4 * i + 2)).toNat +
    2 ^ 24 * (m (4 * i + 3)).toNat

def writeWord (m : Mem) (i v : Nat) : Mem := write m (4 * i) (wordBytes v)

@[simp] theorem length_read (m : Mem) (a n : Nat) : (read m a n).length = n := by simp [read]

@[simp] theorem length_wordBytes (v : Nat) : (wordBytes v).length = 4 := rfl

theorem getElem?_read {m : Mem} {a n i : Nat} (h : i < n) : (read m a n)[i]? = some (m (a + i)) := by
  simp [read, h]

theorem read_congr {m m' : Mem} {a n : Nat} (h : ∀ x, a ≤ x → x < a + n → m' x = m x) :
    read m' a n = read m a n := by
  simp only [read]
  apply List.map_congr_left
  intro i hi
  exact h _ (by omega) (by simpa using hi)

theorem write_outside {m : Mem} {a x : Nat} {bs : List UInt8} (h : x < a ∨ a + bs.length ≤ x) :
    write m a bs x = m x := by
  simp only [write]
  rw [if_neg (by omega)]

theorem write_inside {m : Mem} {a i : Nat} {bs : List UInt8} (h : i < bs.length) :
    write m a bs (a + i) = bs[i] := by
  simp only [write]
  rw [if_pos (by omega), Nat.add_sub_cancel_left, List.getD_eq_getElem _ _ h]

@[simp] theorem read_write (m : Mem) (a : Nat) (bs : List UInt8) :
    read (write m a bs) a bs.length = bs := by
  apply List.ext_getElem
  · simp
  · intro i hi hi'
    simp only [read, List.getElem_map, List.getElem_range]
    exact write_inside hi'

theorem read_write_disjoint {m : Mem} {a a' n : Nat} {bs : List UInt8}
    (h : a' + n ≤ a ∨ a + bs.length ≤ a') : read (write m a bs) a' n = read m a' n := by
  apply read_congr
  intro x hx hx'
  exact write_outside (by omega)

theorem readWord_congr {m m' : Mem} {i : Nat} (h : ∀ x, 4 * i ≤ x → x < 4 * i + 4 → m' x = m x) :
    readWord m' i = readWord m i := by
  simp only [readWord]
  rw [h _ (by omega) (by omega), h _ (by omega) (by omega), h _ (by omega) (by omega),
    h _ (by omega) (by omega)]

theorem readWord_writeWord {m : Mem} {i v : Nat} (h : v < 2 ^ 32) :
    readWord (writeWord m i v) i = v := by
  have h0 : writeWord m i v (4 * i) = UInt8.ofNat v := write_inside (i := 0) (by simp)
  have h1 : writeWord m i v (4 * i + 1) = UInt8.ofNat (v / 2 ^ 8) := write_inside (i := 1) (by simp)
  have h2 : writeWord m i v (4 * i + 2) = UInt8.ofNat (v / 2 ^ 16) := write_inside (i := 2) (by simp)
  have h3 : writeWord m i v (4 * i + 3) = UInt8.ofNat (v / 2 ^ 24) := write_inside (i := 3) (by simp)
  simp only [readWord, h0, h1, h2, h3, UInt8.toNat_ofNat']
  omega

theorem writeWord_outside {m : Mem} {i v x : Nat} (h : x < 4 * i ∨ 4 * i + 4 ≤ x) :
    writeWord m i v x = m x := write_outside (by simpa using h)

theorem read_writeWord_disjoint {m : Mem} {i v a n : Nat} (h : a + n ≤ 4 * i ∨ 4 * i + 4 ≤ a) :
    read (writeWord m i v) a n = read m a n := by
  apply read_congr
  intro x hx hx'
  exact writeWord_outside (by omega)

theorem readWord_writeWord_ne {m : Mem} {i j v : Nat} (h : j ≠ i) :
    readWord (writeWord m i v) j = readWord m j := by
  apply readWord_congr
  intro x hx hx'
  exact writeWord_outside (by omega)

end Library.Bytes
