import Mathlib.Data.Nat.Count
import NvmMalloc.Lib.Memory

/-!
# Counting bits

The bits of a memory from an address on, least significant bit of each byte first (`memBit`), and the
number of ones among the first `n` of them (`setBits`).  The count splits at any byte, and a word that is
loaded has the bits of its bytes.  For bitmaps, `count_eq_succ` says what setting one bit does to a
count.
-/

namespace Bits

open Memory

/-- Bit `i` of the memory at `a`. -/
def memBit (m : Mem) (a i : ℕ) : Bool := (m (a + i / 8)).toNat.testBit (i % 8)

/-- The number of ones among the first `n` bits at `a`. -/
def setBits (m : Mem) (a n : ℕ) : ℕ := Nat.count (fun i => memBit m a i = true) n

theorem memBit_add (m : Mem) (a k i : ℕ) : memBit m a (8 * k + i) = memBit m (a + k) i := by
  have hbyte : (8 * k + i) / 8 = k + i / 8 := by omega
  have hbit : (8 * k + i) % 8 = i % 8 := by omega
  rw [memBit, memBit, hbyte, hbit, Nat.add_assoc]

@[simp] theorem setBits_zero (m : Mem) (a : ℕ) : setBits m a 0 = 0 := rfl

/-- The count splits at any byte. -/
theorem setBits_add (m : Mem) (a k n : ℕ) :
    setBits m a (8 * k + n) = setBits m a (8 * k) + setBits m (a + k) n := by
  unfold setBits
  rw [Nat.count_add]
  simp only [memBit_add]

/-- A byte below a multiple of 256. -/
theorem testBit_byte_add (b x i : ℕ) (hb : b < 256) :
    (b + 256 * x).testBit i = if i < 8 then b.testBit i else x.testBit (i - 8) := by
  rw [Nat.add_comm, show 256 = 2 ^ 8 from rfl]
  exact Nat.testBit_two_pow_mul_add x hb i

/-- A loaded word has the bits of its bytes. -/
theorem testBit_load (m : Mem) (a n i : ℕ) (hi : i < 8 * n) : (load m a n).testBit i = memBit m a i := by
  induction n generalizing a i with
  | zero => omega
  | succ n ih =>
    unfold load
    rw [testBit_byte_add _ _ _ (UInt8.toNat_lt (m a))]
    split
    case isTrue hlow =>
      rw [memBit, Nat.div_eq_of_lt hlow, Nat.mod_eq_of_lt hlow, Nat.add_zero]
    case isFalse hhigh =>
      rw [ih (a + 1) (i - 8) (by omega), ← memBit_add]
      congr 1
      omega

/-- A count depends on the predicate below its bound only. -/
theorem count_congr {p q : ℕ → Prop} [DecidablePred p] [DecidablePred q] {n : ℕ}
    (h : ∀ i < n, p i ↔ q i) : Nat.count p n = Nat.count q n := by
  rw [Nat.count_eq_card_filter_range, Nat.count_eq_card_filter_range]
  apply congrArg
  apply Finset.filter_congr
  intro i hi
  exact h i (Finset.mem_range.mp hi)

/-- The count of an initial segment. -/
theorem count_lt {k n : ℕ} (h : k ≤ n) : Nat.count (fun i => i < k) n = k := by
  rw [Nat.count_eq_card_filter_range]
  have hfilter : (Finset.range n).filter (fun i => i < k) = Finset.range k := by
    ext i
    rw [Finset.mem_filter, Finset.mem_range, Finset.mem_range]
    omega
  rw [hfilter, Finset.card_range]

theorem count_testBit_load (m : Mem) (a n : ℕ) :
    Nat.count (fun i => (load m a n).testBit i = true) (8 * n) = setBits m a (8 * n) :=
  count_congr fun i hi => by rw [testBit_load m a n i hi]

/-- Setting one bit raises the count by one. -/
theorem count_eq_succ {p q : ℕ → Prop} [DecidablePred p] [DecidablePred q] {i n : ℕ} (hi : i < n)
    (hp : ¬ p i) (hq : q i) (hsame : ∀ j, j ≠ i → (q j ↔ p j)) : Nat.count q n = Nat.count p n + 1 := by
  rw [Nat.count_eq_card_filter_range, Nat.count_eq_card_filter_range]
  have hinsert : (Finset.range n).filter q = insert i ((Finset.range n).filter p) := by
    ext j
    rw [Finset.mem_insert, Finset.mem_filter, Finset.mem_filter]
    by_cases hj : j = i
    · subst hj
      exact iff_of_true ⟨Finset.mem_range.mpr hi, hq⟩ (Or.inl rfl)
    · rw [hsame j hj]
      exact (or_iff_right hj).symm
  have hnew : i ∉ (Finset.range n).filter p := fun hmem => hp (Finset.mem_filter.mp hmem).2
  rw [hinsert, Finset.card_insert_of_notMem hnew]

end Bits
