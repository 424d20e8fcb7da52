import NvmMalloc.Lib.Bits
import NvmMalloc.Lib.WhileLoop

/-!
# The popcounts of the kiss allocator

Reference: `benchmark/src/kiss_alloc.c` (`count_set_bits_lookup`, `count_set_bits_avx2`,
`count_set_bits_avx512`).

`count_set_bits` is one of three functions, chosen by what the processor can do.  They take a pointer and
a size; the two callers of `count_set_bits` and the table-driven version mean bits by it.

* `countSetBitsLookup_counted`, `countSetBitsAvx2_counted`: the byte loop and the unrolled 256-bit loop
  with its tail return the number of ones among the first `size` bits, as an `unsigned`, and read the
  first `size / 8` bytes, each once.
* `countSetBitsAvx512_counted`: the 512-bit version takes `size` for a number of bytes.  It counts, and
  reads, eight times as much.
-/

namespace NvmMalloc.Kiss

open Memory Bits Loops

/-! ## The three functions -/

/-- The table `lookup8bit`. -/
def lookup8bitTable : List ℕ :=
  [0, 1, 1, 2, 1, 2, 2, 3, 1, 2, 2, 3, 2, 3, 3, 4, 1, 2, 2, 3, 2, 3, 3, 4, 2, 3, 3, 4, 3, 4, 4, 5,
   1, 2, 2, 3, 2, 3, 3, 4, 2, 3, 3, 4, 3, 4, 4, 5, 2, 3, 3, 4, 3, 4, 4, 5, 3, 4, 4, 5, 4, 5, 5, 6,
   1, 2, 2, 3, 2, 3, 3, 4, 2, 3, 3, 4, 3, 4, 4, 5, 2, 3, 3, 4, 3, 4, 4, 5, 3, 4, 4, 5, 4, 5, 5, 6,
   2, 3, 3, 4, 3, 4, 4, 5, 3, 4, 4, 5, 4, 5, 5, 6, 3, 4, 4, 5, 4, 5, 5, 6, 4, 5, 5, 6, 5, 6, 6, 7,
   1, 2, 2, 3, 2, 3, 3, 4, 2, 3, 3, 4, 3, 4, 4, 5, 2, 3, 3, 4, 3, 4, 4, 5, 3, 4, 4, 5, 4, 5, 5, 6,
   2, 3, 3, 4, 3, 4, 4, 5, 3, 4, 4, 5, 4, 5, 5, 6, 3, 4, 4, 5, 4, 5, 5, 6, 4, 5, 5, 6, 5, 6, 6, 7,
   2, 3, 3, 4, 3, 4, 4, 5, 3, 4, 4, 5, 4, 5, 5, 6, 3, 4, 4, 5, 4, 5, 5, 6, 4, 5, 5, 6, 5, 6, 6, 7,
   3, 4, 4, 5, 4, 5, 5, 6, 4, 5, 5, 6, 5, 6, 6, 7, 4, 5, 5, 6, 5, 6, 6, 7, 5, 6, 6, 7, 6, 7, 7, 8]

/-- `lookup8bit[b]` -/
def lookup8bit (b : UInt8) : ℕ := lookup8bitTable.getD b.toNat 0

/-- `_popcnt64` and `_mm_popcnt_u64`: the ones of a 64-bit word. -/
def popcnt64 (x : ℕ) : ℕ := Nat.count (fun i => x.testBit i = true) 64

/-- A count in progress: where the next byte is read, the sum so far, and the addresses read. -/
structure Tally where
  ptr : ℕ
  total : ℕ
  reads : List ℕ
deriving DecidableEq, Repr

/-- `total += lookup8bit[*ptr++]` for a `total` of `w` bits. -/
def Tally.byte (m : Mem) (w : ℕ) (t : Tally) : Tally where
  ptr := t.ptr + 1
  total := (t.total + lookup8bit (m t.ptr)) % 2 ^ w
  reads := t.reads ++ [t.ptr]

/-- `count_set_bits_lookup`; `result` is `unsigned`. -/
def countSetBitsLookup (m : Mem) (data size : ℕ) : Tally :=
  (Tally.byte m 32)^[size / 8] ⟨data, 0, []⟩

/-- `ITER`: a 256-bit load, of which the four words are counted one by one. -/
def avx2Iter (m : Mem) (t : Tally) : Tally where
  ptr := t.ptr + 32
  total := ((((t.total + popcnt64 (load m t.ptr 8)) % 2 ^ 64 +
    popcnt64 (load m (t.ptr + 8) 8)) % 2 ^ 64 +
    popcnt64 (load m (t.ptr + 16) 8)) % 2 ^ 64 +
    popcnt64 (load m (t.ptr + 24) 8)) % 2 ^ 64
  reads := t.reads ++ List.range' t.ptr 32

/-- `count_set_bits_avx2` -/
def countSetBitsAvx2 (m : Mem) (data size : ℕ) : Tally :=
  let bytes := size / 8
  let t := whileLoop (fun t => decide (t.ptr + 4 * 32 ≤ data + bytes))
    (fun t => avx2Iter m (avx2Iter m (avx2Iter m (avx2Iter m t)))) bytes ⟨data, 0, []⟩
  let rest := countSetBitsLookup m t.ptr (8 * (data + bytes - t.ptr))
  { ptr := rest.ptr
    total := (t.total + rest.total) % 2 ^ 64 % 2 ^ 32
    reads := t.reads ++ rest.reads }

/-- The 512-bit loop: the accumulator has eight lanes of 64 bits. -/
structure Lanes where
  ptr : ℕ
  acc : ℕ → ℕ
  reads : List ℕ

/-- One 512-bit load, counted lane by lane. -/
def avx512Iter (m : Mem) (z : Lanes) : Lanes where
  ptr := z.ptr + 64
  acc := fun lane => (z.acc lane + popcnt64 (load m (z.ptr + 8 * lane) 8)) % 2 ^ 64
  reads := z.reads ++ List.range' z.ptr 64

/-- The horizontal sum of the accumulator. -/
def Lanes.sum (z : Lanes) : ℕ := (List.range 8).foldl (fun total i => (total + z.acc i) % 2 ^ 64) 0

/-- `total += _mm_popcnt_u64(*(const uint64_t *)ptr); ptr += 8` -/
def Tally.word (m : Mem) (t : Tally) : Tally where
  ptr := t.ptr + 8
  total := (t.total + popcnt64 (load m t.ptr 8)) % 2 ^ 64
  reads := t.reads ++ List.range' t.ptr 8

/-- `count_set_bits_avx512`: `chunks` and `end` are computed from `size` as a number of bytes. -/
def countSetBitsAvx512 (m : Mem) (data size : ℕ) : Tally :=
  let z := (avx512Iter m)^[size / 64] ⟨data, fun _ => 0, []⟩
  let words := whileLoop (fun t => decide (t.ptr + 8 < data + size)) (Tally.word m) size
    ⟨z.ptr, z.sum, z.reads⟩
  let bytes := whileLoop (fun t => decide (t.ptr < data + size)) (Tally.byte m 64) size words
  { bytes with total := bytes.total % 2 ^ 32 }

/-! ## What has been counted -/

theorem lookup8bit_eq (b : UInt8) : lookup8bit b = Nat.count (fun i => b.toNat.testBit i = true) 8 := by
  have htable : ∀ n < 256,
      lookup8bitTable.getD n 0 = Nat.count (fun i => n.testBit i = true) 8 := by
    decide +kernel
  exact htable b.toNat (UInt8.toNat_lt b)

theorem lookup8bit_setBits (m : Mem) (a : ℕ) : lookup8bit (m a) = setBits m a 8 := by
  have hload : load m a 1 = (m a).toNat := by simp [load]
  rw [lookup8bit_eq, ← hload]
  exact count_testBit_load m a 1

theorem popcnt64_load (m : Mem) (a : ℕ) : popcnt64 (load m a 8) = setBits m a 64 :=
  count_testBit_load m a 8

/-- The tally of the first `n` bytes at `data`, in `w` bits: each byte was read once, in order. -/
structure Counted (m : Mem) (data w n : ℕ) (t : Tally) : Prop where
  ptr : t.ptr = data + n
  total : t.total = setBits m data (8 * n) % 2 ^ w
  reads : t.reads = List.range' data n

theorem Counted.zero (m : Mem) (data w : ℕ) : Counted m data w 0 ⟨data, 0, []⟩ :=
  ⟨rfl, (Nat.zero_mod _).symm, rfl⟩

/-- `k` more bytes, of which the ones are added. -/
theorem Counted.read {m : Mem} {data w n k v : ℕ} {t t' : Tally} (h : Counted m data w n t)
    (hv : v = setBits m t.ptr (8 * k)) (hptr : t'.ptr = t.ptr + k)
    (htotal : t'.total = (t.total + v) % 2 ^ w) (hreads : t'.reads = t.reads ++ List.range' t.ptr k) :
    Counted m data w (n + k) t' where
  ptr := by rw [hptr, h.ptr, Nat.add_assoc]
  total := by
    rw [htotal, h.total, hv, h.ptr, Nat.mod_add_mod, Nat.mul_add, setBits_add]
  reads := by
    rw [hreads, h.reads, h.ptr]
    exact List.range'_append_1

theorem Counted.byte {m : Mem} {data w n : ℕ} {t : Tally} (h : Counted m data w n t) :
    Counted m data w (n + 1) (t.byte m w) :=
  h.read (lookup8bit_setBits m t.ptr) rfl rfl rfl

theorem Counted.word {m : Mem} {data n : ℕ} {t : Tally} (h : Counted m data 64 n t) :
    Counted m data 64 (n + 8) (t.word m) :=
  h.read (popcnt64_load m t.ptr) rfl rfl rfl

/-- The ones of `k + 1` words are those of the first `k` and of the last. -/
theorem setBits_words_succ (m : Mem) (a k : ℕ) :
    setBits m a (64 * (k + 1)) = setBits m a (64 * k) + popcnt64 (load m (a + 8 * k) 8) := by
  rw [popcnt64_load, show 64 * (k + 1) = 8 * (8 * k) + 64 by omega, setBits_add,
    show 8 * (8 * k) = 64 * k by omega]

theorem Counted.avx2Iter {m : Mem} {data n : ℕ} {t : Tally} (h : Counted m data 64 n t) :
    Counted m data 64 (n + 32) (avx2Iter m t) := by
  have hfour : setBits m t.ptr (8 * 32) = popcnt64 (load m t.ptr 8) +
      popcnt64 (load m (t.ptr + 8) 8) + popcnt64 (load m (t.ptr + 16) 8) +
      popcnt64 (load m (t.ptr + 24) 8) := by
    rw [show 8 * 32 = 64 * (3 + 1) from rfl, setBits_words_succ, setBits_words_succ,
      setBits_words_succ, setBits_words_succ, Nat.mul_zero, setBits_zero, Nat.zero_add]
    rfl
  apply h.read hfour.symm rfl _ rfl
  unfold Kiss.avx2Iter
  simp only [Nat.mod_add_mod, Nat.add_assoc]

/-! ## The byte loop and the 256-bit loop -/

theorem countSetBitsLookup_counted (m : Mem) (data size : ℕ) :
    Counted m data 32 (size / 8) (countSetBitsLookup m data size) :=
  iterate_spec (fun j t => Counted m data 32 j t) (fun _ _ h => h.byte) (Counted.zero m data 32)
    (size / 8)

/-- A loop that counts `k` bytes a round and stops before `size`. -/
theorem counted_loop (m : Mem) (data size k : ℕ) (cond : Tally → Bool) (body : Tally → Tally)
    (hcond : ∀ t, cond t = true → t.ptr + k ≤ data + size) (hk : 0 < k)
    (hbody : ∀ n t, Counted m data 64 n t → Counted m data 64 (n + k) (body t)) {n : ℕ} {t : Tally}
    (hn : n ≤ size) (h : Counted m data 64 n t) :
    ∃ n' t', whileLoop cond body size t = t' ∧ n' ≤ size ∧ Counted m data 64 n' t' ∧
      cond t' = false := by
  have hstart : data + size - t.ptr ≤ size := by
    rw [h.ptr]
    omega
  have hround : ∀ t, (∃ n ≤ size, Counted m data 64 n t) → cond t = true →
      (∃ n ≤ size, Counted m data 64 n (body t)) ∧ data + size - (body t).ptr < data + size - t.ptr := by
    rintro t ⟨n, -, h⟩ ht
    have hroom := hcond t ht
    have hptr := h.ptr
    have hptr' := (hbody n t h).ptr
    exact ⟨⟨n + k, by omega, hbody n t h⟩, by omega⟩
  obtain ⟨⟨n', hn', h'⟩, hexit⟩ := whileLoop_spec (fun t => ∃ n ≤ size, Counted m data 64 n t)
    (fun t => data + size - t.ptr) hround ⟨n, hn, h⟩ hstart
  exact ⟨n', _, rfl, hn', h', hexit⟩

/-- The table counts what the main loop has left over. -/
theorem Counted.lookup {m : Mem} {data size n : ℕ} {t : Tally} (hn : n ≤ size / 8)
    (h : Counted m data 64 n t) :
    Counted m t.ptr 32 (size / 8 - n) (countSetBitsLookup m t.ptr (8 * (data + size / 8 - t.ptr))) := by
  have hleft : 8 * (data + size / 8 - t.ptr) / 8 = size / 8 - n := by
    rw [h.ptr]
    omega
  rw [← hleft]
  exact countSetBitsLookup_counted m t.ptr _

theorem countSetBitsAvx2_counted (m : Mem) (data size : ℕ) :
    Counted m data 32 (size / 8) (countSetBitsAvx2 m data size) := by
  -- the main loop has counted some of the bytes, and stops within them
  obtain ⟨n, t, ht, hn, hmain, -⟩ := counted_loop m data (size / 8) (32 + 32 + 32 + 32)
    (fun t => decide (t.ptr + 4 * 32 ≤ data + size / 8))
    (fun t => avx2Iter m (avx2Iter m (avx2Iter m (avx2Iter m t))))
    (fun t ht => of_decide_eq_true ht) (by decide)
    (fun n t h => h.avx2Iter.avx2Iter.avx2Iter.avx2Iter) (Nat.zero_le _) (Counted.zero m data 64)
  have hrest := hmain.lookup hn
  have hall : setBits m data (8 * (size / 8)) =
      setBits m data (8 * n) + setBits m t.ptr (8 * (size / 8 - n)) := by
    rw [hmain.ptr, ← setBits_add]
    congr 1
    omega
  unfold countSetBitsAvx2
  simp only [ht]
  constructor
  case ptr =>
    rw [hrest.ptr, hmain.ptr]
    omega
  case total =>
    show (t.total + (countSetBitsLookup m t.ptr _).total) % 2 ^ 64 % 2 ^ 32 = _
    rw [hrest.total, hmain.total, hall]
    omega
  case reads =>
    show t.reads ++ (countSetBitsLookup m t.ptr _).reads = _
    rw [hrest.reads, hmain.reads, hmain.ptr, List.range'_append_1, Nat.add_sub_of_le hn]

/-! ## The 512-bit loop -/

theorem Lanes.sum_eq (z : Lanes) : z.sum = (z.acc 0 + z.acc 1 + z.acc 2 + z.acc 3 + z.acc 4 +
    z.acc 5 + z.acc 6 + z.acc 7) % 2 ^ 64 := by
  simp [Lanes.sum, List.range_succ]

/-- A 512-bit load adds the ones of its eight words to the horizontal sum. -/
theorem sum_avx512Iter (m : Mem) (z : Lanes) :
    (avx512Iter m z).sum = (z.sum + setBits m z.ptr (8 * 64)) % 2 ^ 64 := by
  have height : setBits m z.ptr (8 * 64) = popcnt64 (load m z.ptr 8) +
      popcnt64 (load m (z.ptr + 8 * 1) 8) + popcnt64 (load m (z.ptr + 8 * 2) 8) +
      popcnt64 (load m (z.ptr + 8 * 3) 8) + popcnt64 (load m (z.ptr + 8 * 4) 8) +
      popcnt64 (load m (z.ptr + 8 * 5) 8) + popcnt64 (load m (z.ptr + 8 * 6) 8) +
      popcnt64 (load m (z.ptr + 8 * 7) 8) := by
    rw [show 8 * 64 = 64 * (7 + 1) from rfl]
    simp only [setBits_words_succ, Nat.mul_zero, setBits_zero, Nat.zero_add, Nat.add_zero]
  rw [Lanes.sum_eq, Lanes.sum_eq, height]
  unfold avx512Iter
  simp only [Nat.mul_zero, Nat.add_zero]
  omega

/-- The 512-bit loop has counted 64 bytes a round. -/
theorem counted_avx512Iter (m : Mem) (data k : ℕ) :
    ∃ z, (avx512Iter m)^[k] ⟨data, fun _ => 0, []⟩ = z ∧
      Counted m data 64 (64 * k) ⟨z.ptr, z.sum, z.reads⟩ := by
  have hround : ∀ j (z : Lanes), Counted m data 64 (64 * j) ⟨z.ptr, z.sum, z.reads⟩ →
      Counted m data 64 (64 * (j + 1))
        ⟨(avx512Iter m z).ptr, (avx512Iter m z).sum, (avx512Iter m z).reads⟩ :=
    fun j z h => h.read rfl rfl (sum_avx512Iter m z) rfl
  exact ⟨_, rfl,
    iterate_spec (fun j (z : Lanes) => Counted m data 64 (64 * j) ⟨z.ptr, z.sum, z.reads⟩) hround
    (Counted.zero m data 64) k⟩

/-- The 512-bit version counts the ones of `size` bytes, and reads them all. -/
theorem countSetBitsAvx512_counted (m : Mem) (data size : ℕ) :
    Counted m data 32 size (countSetBitsAvx512 m data size) := by
  unfold countSetBitsAvx512
  obtain ⟨z, hz, hlanes⟩ := counted_avx512Iter m data (size / 64)
  rw [hz]
  obtain ⟨n, words, hwords, hn, hcounted, -⟩ := counted_loop m data size 8
    (fun t => decide (t.ptr + 8 < data + size)) (Tally.word m)
    (fun t ht => (of_decide_eq_true ht).le) (by decide) (fun _ _ h => h.word)
    (Nat.mul_div_le size 64) hlanes
  simp only [hwords]
  obtain ⟨n', bytes, hbytes, hn', hcounted', hexit⟩ := counted_loop m data size 1
    (fun t => decide (t.ptr < data + size)) (Tally.byte m 64)
    (fun t ht => of_decide_eq_true ht) (by decide) (fun _ _ h => h.byte) hn hcounted
  simp only [hbytes]
  have hall : n' = size := by
    have hptr := hcounted'.ptr
    have hend := of_decide_eq_false hexit
    omega
  subst hall
  refine ⟨hcounted'.ptr, ?_, hcounted'.reads⟩
  show bytes.total % 2 ^ 32 = _
  rw [hcounted'.total]
  omega

/-! ## Agreement -/

/-- What the callers rely on: the value is the number of ones among the first `size` bits at `data`, and
no byte beyond them is read. -/
structure CountsBits (m : Mem) (data size : ℕ) (t : Tally) : Prop where
  total : t.total = setBits m data size
  reads : ∀ a ∈ t.reads, 8 * (a - data) + 8 ≤ size

/-- The three functions agree on the first `size` bits at `data`. -/
structure CountsAgree (m : Mem) (data size : ℕ) : Prop where
  avx512 : CountsBits m data size (countSetBitsAvx512 m data size)
  avx2 : CountsBits m data size (countSetBitsAvx2 m data size)
  lookup : CountsBits m data size (countSetBitsLookup m data size)

/-- Nothing to count. -/
theorem Counted.countsBits_zero {m : Mem} {data : ℕ} {t : Tally} (h : Counted m data 32 0 t) :
    CountsBits m data 0 t where
  total := h.total
  reads := by
    rw [h.reads]
    exact fun a ha => absurd ha (List.not_mem_nil)

/-- **The 512-bit popcount takes bits for bytes.**  The three functions agree on no size but zero: the
512-bit version reads `size` bytes where the first `size` bits are `size / 8` bytes. -/
theorem counts_agree_iff (m : Mem) (data size : ℕ) : CountsAgree m data size ↔ size = 0 := by
  constructor
  · intro h
    by_contra hsize
    have hlast : data + (size - 1) ∈ (countSetBitsAvx512 m data size).reads := by
      rw [(countSetBitsAvx512_counted m data size).reads, List.mem_range'_1]
      omega
    have hpast := h.avx512.reads _ hlast
    omega
  · rintro rfl
    exact ⟨(countSetBitsAvx512_counted m data 0).countsBits_zero,
      (countSetBitsAvx2_counted m data 0).countsBits_zero,
      (countSetBitsLookup_counted m data 0).countsBits_zero⟩

/-- A word of ones in a memory of ones: its 64 bits are counted as 512, and the byte that is 63 bytes on
is read. -/
theorem avx512_counts_bytes :
    (countSetBitsAvx512 (fun _ => 0xff) 0 64).total = 512 ∧
    63 ∈ (countSetBitsAvx512 (fun _ => 0xff) 0 64).reads ∧
    (countSetBitsAvx2 (fun _ => 0xff) 0 64).total = 64 ∧
    (countSetBitsLookup (fun _ => 0xff) 0 64).total = 64 ∧
    ¬ CountsAgree (fun _ => 0xff) 0 64 := by
  have htotal : (countSetBitsAvx512 (fun _ => 0xff) 0 64).total = 512 := by decide +kernel
  have hones : setBits (fun _ => 0xff) 0 64 = 64 := by decide +kernel
  refine ⟨htotal, by decide +kernel, by decide +kernel, by decide +kernel, fun h => ?_⟩
  have := h.avx512.total
  rw [htotal, hones] at this
  omega

end NvmMalloc.Kiss
