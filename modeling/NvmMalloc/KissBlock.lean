import NvmMalloc.KissPopcount

/-!
# The allocation block of the kiss allocator

Reference: `benchmark/src/kiss_alloc.c`.

A second, simpler allocator that the benchmarks compare with: a mapped file is cut into units of one
size, and a bitset behind a 64-byte header says which of them are taken.  The ephemeral
`alloc_block` keeps the number of free units and hints where to look.

The functions are those of the source, run by one thread: a compare-and-swap then finds what was read.
`KissUnits` has the interleavings.  A failed `assert` and a subscript out of range are results of their
own.  `count_set_bits` is the table-driven version, with which the 256-bit version agrees.
-/

namespace NvmMalloc.Kiss

open Memory Bits Loops

/-- `LARGE_PAGE_SIZE` -/
def largePageSize : ℕ := 512 * 4096

/-- `BITS_PER_ULL` -/
def bitsPerUll : ℕ := 64

/-- The number of entries of `cpu_index_hint`. -/
def cpuIndexHints : ℕ := 128

/-- `offsetof(struct nvm_block_header, Bitset)` -/
def bitsetOffset : ℕ := 64

/-- How a call can end other than by returning. -/
inductive Stop where
  /-- A failed `assert` other than the one on the index. -/
  | assertFailed
  /-- A division by zero. -/
  | fault
  /-- `cpu_index_hint[index]` out of range. -/
  | cpuIndexHint (index : ℕ)
  /-- `Bitset[index]` out of range. -/
  | bitset (index : ℕ)
  /-- `assert(index < alloc_block->largest_index_hint)` -/
  | indexAssert (index : ℕ)
  /-- A loop has not ended within the rounds it is given. -/
  | outOfFuel
deriving DecidableEq, Repr

/-- `struct alloc_block`, with the `Bitset` of the mapped header. -/
structure AllocBlock where
  baseAddr : ℕ
  length : ℕ
  unitSize : ℕ
  nextIndexHint : ℕ
  largestIndexHint : ℕ
  freeBlocks : ℕ
  bitsetLength : ℕ
  cpuIndexHint : ℕ → ℕ
  bitset : ℕ → BitVec 64

/-- `__sync_fetch_and_sub` by one, on an `unsigned`. -/
def decr32 (n : ℕ) : ℕ := (n + (2 ^ 32 - 1)) % 2 ^ 32

/-- `__sync_fetch_and_add` by one, on an `unsigned`. -/
def incr32 (n : ℕ) : ℕ := (n + 1) % 2 ^ 32

/-! ## The bitset -/

/-- The bit of a unit. -/
def unitBit (bitset : ℕ → BitVec 64) (i : ℕ) : Bool := (bitset (i / 64)).getLsbD (i % 64)

/-- The bytes of the bitset. -/
def bitsetBytes (bitset : ℕ → BitVec 64) : Mem :=
  fun a => UInt8.ofNat ((bitset (a / 8)).toNat >>> (8 * (a % 8)))

/-- The number of units that are taken, of `n` words. -/
def popcount (bitset : ℕ → BitVec 64) (n : ℕ) : ℕ :=
  Nat.count (fun i => unitBit bitset i = true) (64 * n)

theorem memBit_bitsetBytes (bitset : ℕ → BitVec 64) (i : ℕ) :
    memBit (bitsetBytes bitset) 0 i = unitBit bitset i := by
  have hword : i / 8 / 8 = i / 64 := by omega
  have hbit : 8 * (i / 8 % 8) + i % 8 = i % 64 := by omega
  have hlow : i % 8 < 8 := Nat.mod_lt _ (by decide)
  unfold memBit bitsetBytes unitBit
  rw [Nat.zero_add, UInt8.toNat_ofNat', Nat.testBit_mod_two_pow, Nat.testBit_shiftRight, hword, hbit]
  simp [hlow, BitVec.testBit_toNat]

/-- `count_set_bits` counts the units that are taken. -/
theorem countSetBitsLookup_bitset (bitset : ℕ → BitVec 64) (n : ℕ) :
    (countSetBitsLookup (bitsetBytes bitset) 0 (n * 64)).total = popcount bitset n % 2 ^ 32 := by
  rw [(countSetBitsLookup_counted _ _ _).total, show 8 * (n * 64 / 8) = 64 * n by omega]
  unfold setBits popcount
  simp only [memBit_bitsetBytes]

/-- `Bitset[index]` -/
def AllocBlock.bitsetAt (ab : AllocBlock) (index : ℕ) : Except Stop (BitVec 64) :=
  if index < ab.bitsetLength then .ok (ab.bitset index) else .error (.bitset index)

/-! ## Layout -/

/-- `alloc_block->unit_size * BITS_PER_ULL`, a `size_t`. -/
def wordBytes (unitSize : ℕ) : ℕ := unitSize * bitsPerUll % 2 ^ 64

/-- `header_length`: the header and the bitset, rounded up to a cache line. -/
def headerLength (bitsetLength : ℕ) : ℕ := bitsetOffset + (63 + bitsetLength * 8) / 64 * 64

/-- `verify_blockcount` -/
def verifyBlockcount (ab : AllocBlock) : Except Stop Unit :=
  let count := (countSetBitsLookup (bitsetBytes ab.bitset) 0 (ab.bitsetLength * bitsPerUll)).total
  if ab.baseAddr ≠ 0 ∧ (count + ab.freeBlocks) % 2 ^ 32 = ab.length / ab.unitSize then
    .ok ()
  else
    .error .assertFailed

/-- The two marking loops of `layout_alloc_map` at work.  `headerAllocated` does not wrap: 64 units of a
block with more than 128 words are fewer than 2^25 bytes modulo 2^64, so that a unit stays below
2^64 - 2^57. -/
structure Marking where
  bitset : ℕ → BitVec 64
  freeBlocks : ℕ
  headerAllocated : ℕ
  index : ℕ

/-- A whole element of the bitset is allocated. -/
def Marking.word (unitSize : ℕ) (k : Marking) : Marking where
  bitset := Function.update k.bitset k.index (BitVec.allOnes 64)
  freeBlocks := (k.freeBlocks + (2 ^ 32 - bitsPerUll)) % 2 ^ 32
  headerAllocated := k.headerAllocated + wordBytes unitSize
  index := k.index + 1

/-- The final bits.  The statement `block->Bitset[index] << 1;` has no effect, and `index` stays. -/
def Marking.unit (unitSize : ℕ) (k : Marking) : Marking where
  bitset := Function.update k.bitset k.index (k.bitset k.index ||| 1#64)
  freeBlocks := decr32 k.freeBlocks
  headerAllocated := k.headerAllocated + unitSize
  index := k.index

/-- `layout_alloc_map` before the check: clear the bitset and mark the units of the header. -/
def markHeader (ab : AllocBlock) : AllocBlock :=
  let bitsetLength := ab.length / wordBytes ab.unitSize
  let length := headerLength bitsetLength
  let cleared := fun i => if i < (length - bitsetOffset) / 8 then 0#64 else ab.bitset i
  let words := whileLoop (fun k => decide (wordBytes ab.unitSize < length - k.headerAllocated))
    (Marking.word ab.unitSize) length ⟨cleared, ab.freeBlocks, 0, 0⟩
  let units := whileLoop (fun k => decide (k.headerAllocated < length)) (Marking.unit ab.unitSize) length
    words
  { ab with bitsetLength := bitsetLength, bitset := units.bitset, freeBlocks := units.freeBlocks }

/-- `layout_alloc_map`; the flushes are left out. -/
def layoutAllocMap (ab : AllocBlock) : Except Stop AllocBlock :=
  if wordBytes ab.unitSize = 0 then
    .error .fault
  else
    match verifyBlockcount (markHeader ab) with
    | .ok _ => .ok (markHeader ab)
    | .error e => .error e

/-- `LARGE_PAGE_SIZE * large_page_count`, an `unsigned`. -/
def mapLength (largePageCount : ℕ) : ℕ := largePageSize * largePageCount % 2 ^ 32

/-- The block as `create_alloc_map` fills it in; one with more than 128 words is handed to
`layout_alloc_map`.  The file is mapped at `baseAddr` and its bytes where the bitset will be are
`file`. -/
def mappedBlock (baseAddr : ℕ) (file : ℕ → BitVec 64) (unitSize largePageCount : ℕ) : AllocBlock where
  baseAddr := baseAddr
  length := mapLength largePageCount
  unitSize := unitSize
  nextIndexHint := cpuIndexHints + 1
  largestIndexHint := mapLength largePageCount / wordBytes unitSize
  freeBlocks := mapLength largePageCount / unitSize % 2 ^ 32
  bitsetLength := 0
  cpuIndexHint := fun index => index + 1
  bitset := file

/-- `create_alloc_map`: the hints are checked one by one, and no mapping is empty. -/
def createAllocMap (baseAddr : ℕ) (file : ℕ → BitVec 64) (unitSize largePageCount : ℕ) :
    Except Stop AllocBlock :=
  let ab := mappedBlock baseAddr file unitSize largePageCount
  if wordBytes unitSize = 0 then
    .error .fault
  else if ∀ index < cpuIndexHints, ab.cpuIndexHint index < ab.largestIndexHint then
    if ab.length = 0 then .error .assertFailed else layoutAllocMap ab
  else
    .error .assertFailed

/-! ## Hints -/

/-- `cpu_index_hint[index]` -/
def AllocBlock.hintAt (ab : AllocBlock) (index : ℕ) : Except Stop ℕ :=
  if index < cpuIndexHints then .ok (ab.cpuIndexHint index) else .error (.cpuIndexHint index)

/-- `cpu_index_hint[index] = hint` -/
def AllocBlock.setHint (ab : AllocBlock) (index hint : ℕ) : Except Stop AllocBlock :=
  if index < cpuIndexHints then
    .ok { ab with cpuIndexHint := Function.update ab.cpuIndexHint index hint }
  else
    .error (.cpuIndexHint index)

/-- `get_next_index_hint`: `update` and `current` are `unsigned`, the hint is a `size_t`.  With one
thread, the compare-and-swap compares the hint with what was read from it. -/
def getNextIndexHint (ab : AllocBlock) : ℕ × AllocBlock :=
  let update := ab.nextIndexHint % 2 ^ 32
  let ab := { ab with nextIndexHint := (ab.nextIndexHint + 1) % 2 ^ 64 }
  if update < ab.largestIndexHint then
    (update, ab)
  else
    -- the race condition case: `update` is read again, and returned
    let update := ab.nextIndexHint % 2 ^ 32
    (update, if ab.nextIndexHint = update then { ab with nextIndexHint := 0 } else ab)

/-- `(index > alloc_block->largest_index_hint) || (~0 == block->Bitset[index])` -/
def AllocBlock.mustSkip (ab : AllocBlock) (index : ℕ) : Except Stop Bool :=
  if ab.largestIndexHint < index then .ok true
  else do
    let word ← ab.bitsetAt index
    .ok (decide (word = BitVec.allOnes 64))

/-- The inner loop of `find_first_available`: as long as the word is full, the next hint is taken and
stored at `cpu_index_hint[index]`. -/
def findWord : ℕ → ℕ → AllocBlock → Except Stop (ℕ × AllocBlock)
  | 0, _, _ => .error .outOfFuel
  | fuel + 1, index, ab => do
    let skip ← ab.mustSkip index
    if skip then do
      let next := getNextIndexHint ab
      let ab ← next.2.setHint index next.1
      findWord fuel next.1 ab
    else
      .ok (index, ab)

/-- The bit that is taken of a word: `__builtin_ctzll(~current)`. -/
def firstClear (current : BitVec 64) : ℕ := (BitVec.ctz (~~~current)).toNat

/-- `current | (((unsigned long long)1) << bit)` -/
def setUnit (current : BitVec 64) (bit : ℕ) : BitVec 64 := current ||| BitVec.twoPow 64 bit

/-- `current & ~(((unsigned long long)1) << bit)` -/
def clearUnit (current : BitVec 64) (bit : ℕ) : BitVec 64 := current &&& ~~~ BitVec.twoPow 64 bit

/-- `count_set_bits` of one word. -/
def wordCount (word : BitVec 64) : ℕ :=
  (countSetBitsLookup (bitsetBytes fun _ => word) 0 bitsPerUll).total

/-- `bitset_length * 64 * unit_size == length`, the first assertion of `find_first_available`: the first
product is `unsigned`, the second one a `size_t`. -/
def AllocBlock.WholeWords (ab : AllocBlock) : Prop :=
  ab.length / wordBytes ab.unitSize % 2 ^ 32 * 64 % 2 ^ 32 * ab.unitSize % 2 ^ 64 = ab.length

instance (ab : AllocBlock) : Decidable ab.WholeWords := inferInstanceAs (Decidable (_ = _))

/-- `~0` as an `unsigned`. -/
def noBlock : ℕ := 2 ^ 32 - 1

/-- The first clear bit of word `index` is taken: the compare-and-swap finds the word unchanged. -/
def AllocBlock.takeUnit (ab : AllocBlock) (index : ℕ) : Except Stop (ℕ × AllocBlock) := do
  let current ← ab.bitsetAt index
  let bit := firstClear current
  if wordCount current + 1 = wordCount (setUnit current bit) then
    .ok ((bit + index * 64) % 2 ^ 32,
      { ab with
        bitset := Function.update ab.bitset index (setUnit current bit)
        freeBlocks := decr32 ab.freeBlocks })
  else
    .error .assertFailed

/-- `find_first_available` on processor `cpu`.  The outer loop makes one round, since nobody can change
the word between the load and the compare-and-swap. -/
def findFirstAvailable (cpu : ℕ) (ab : AllocBlock) : Except Stop (ℕ × AllocBlock) :=
  if ¬ (ab.WholeWords ∧ cpu ≤ cpuIndexHints) then
    .error .assertFailed
  else if ab.freeBlocks = 0 then
    .ok (noBlock, ab)
  else do
    let hint ← ab.hintAt cpu
    let index := hint % 2 ^ 32
    if ab.largestIndexHint ≤ index then
      .error (.indexAssert index)
    else do
      let (index, ab) ← findWord (ab.largestIndexHint + 2) index ab
      ab.takeUnit index

/-- The address of a unit; `offset * unit_size` is a `size_t`.  A sum of 2^64 or more stands for the
wrapped address: `kiss_free` rejects both. -/
def AllocBlock.address (ab : AllocBlock) (offset : ℕ) : ℕ := ab.baseAddr + offset * ab.unitSize % 2 ^ 64

/-- `kiss_malloc` on processor `cpu`. -/
def kissMalloc (cpu size : ℕ) (ab : AllocBlock) : Except Stop (ℕ × AllocBlock) :=
  if ab.unitSize < size then
    .error .assertFailed
  else do
    let (offset, ab) ← findFirstAvailable cpu ab
    .ok (if offset = noBlock then 0 else ab.address offset, ab)

/-- The word and the bit that `kiss_free` computes from an address, or a failed sanity check.  `index` is
`unsigned`, and `bit` is computed modulo 2^64. -/
def AllocBlock.locate (ab : AllocBlock) (address : ℕ) : Except Stop (ℕ × ℕ) :=
  let offset := address - ab.baseAddr
  let index := offset / wordBytes ab.unitSize % 2 ^ 32
  let bit := (offset + (2 ^ 64 - index * ab.unitSize * bitsPerUll % 2 ^ 64)) % 2 ^ 64 / ab.unitSize
  if ab.baseAddr + bitsetOffset + ab.bitsetLength ≤ address ∧ offset < ab.length ∧ bit < bitsPerUll then
    .ok (index, bit)
  else
    .error .assertFailed

/-- `kiss_free` -/
def kissFree (address : ℕ) (ab : AllocBlock) : Except Stop AllocBlock :=
  if address = 0 then
    .ok ab
  else do
    let (index, bit) ← ab.locate address
    let current ← ab.bitsetAt index
    if clearUnit current bit = current then
      .error .assertFailed
    else
      .ok { ab with
        bitset := Function.update ab.bitset index (clearUnit current bit)
        freeBlocks := incr32 ab.freeBlocks }

/-! ## One bit of a word -/

theorem getLsbD_setUnit (word : BitVec 64) {bit : ℕ} (hbit : bit < 64) (j : ℕ) :
    (setUnit word bit).getLsbD j = (word.getLsbD j || decide (j = bit)) := by
  unfold setUnit
  rw [BitVec.getLsbD_or, BitVec.getLsbD_twoPow]
  by_cases hj : j = bit
  · subst hj
    simp [hbit]
  · simp [hj, Ne.symm hj]

theorem getLsbD_clearUnit (word : BitVec 64) (bit j : ℕ) :
    (clearUnit word bit).getLsbD j = (word.getLsbD j && !decide (j = bit)) := by
  unfold clearUnit
  rw [BitVec.getLsbD_and, BitVec.getLsbD_not, BitVec.getLsbD_twoPow]
  by_cases hj : j < 64
  · by_cases hbit : j = bit
    · subst hbit
      simp [hj]
    · simp [hj, hbit, Ne.symm hbit]
  · simp [BitVec.getLsbD_of_ge word j (by omega)]

theorem firstClear_clear {word : BitVec 64} (hword : word ≠ BitVec.allOnes 64) :
    firstClear word < 64 ∧ word.getLsbD (firstClear word) = false := by
  have hne : ~~~word ≠ 0#64 := by
    intro h
    apply hword
    calc word = ~~~(~~~word) := BitVec.not_not.symm
      _ = ~~~(0#64) := by rw [h]
      _ = BitVec.allOnes 64 := by decide
  have hone := BitVec.getLsbD_true_ctz_of_ne_zero hne
  have hlt : firstClear word < 64 := BitVec.lt_of_getLsbD hone
  rw [BitVec.getLsbD_not] at hone
  unfold firstClear at *
  simpa [hlt] using hone

/-- A full word has no bit to take: counting trailing zeros gives 64, and the update is the word
itself. -/
theorem setUnit_allOnes :
    setUnit (BitVec.allOnes 64) (firstClear (BitVec.allOnes 64)) = BitVec.allOnes 64 := by
  decide +kernel

/-- Taking a unit sets its bit and no other. -/
theorem unitBit_setUnit (bitset : ℕ → BitVec 64) (index : ℕ) {bit : ℕ} (hbit : bit < 64) (x : ℕ) :
    unitBit (Function.update bitset index (setUnit (bitset index) bit)) x =
      (unitBit bitset x || decide (x = 64 * index + bit)) := by
  unfold unitBit
  by_cases hx : x / 64 = index
  · subst hx
    rw [Function.update_self, getLsbD_setUnit _ hbit]
    congr 2
    rw [eq_iff_iff]
    omega
  · rw [Function.update_of_ne hx, decide_eq_false (by omega), Bool.or_false]

/-- Giving a unit back clears its bit and no other. -/
theorem unitBit_clearUnit (bitset : ℕ → BitVec 64) (index : ℕ) {bit : ℕ} (hbit : bit < 64) (x : ℕ) :
    unitBit (Function.update bitset index (clearUnit (bitset index) bit)) x =
      (unitBit bitset x && !decide (x = 64 * index + bit)) := by
  unfold unitBit
  by_cases hx : x / 64 = index
  · subst hx
    rw [Function.update_self, getLsbD_clearUnit]
    congr 3
    rw [eq_iff_iff]
    omega
  · rw [Function.update_of_ne hx, decide_eq_false (by omega), Bool.not_false, Bool.and_true]

theorem unitBit_index (bitset : ℕ → BitVec 64) (index : ℕ) {bit : ℕ} (hbit : bit < 64) :
    unitBit bitset (64 * index + bit) = (bitset index).getLsbD bit := by
  have hword : (64 * index + bit) / 64 = index := by omega
  have hlow : (64 * index + bit) % 64 = bit := by omega
  rw [unitBit, hword, hlow]

/-- Taking a unit that is free counts one more. -/
theorem popcount_setUnit {bitset : ℕ → BitVec 64} (index : ℕ) {bit n : ℕ} (hbit : bit < 64)
    (hindex : index < n) (hclear : (bitset index).getLsbD bit = false) :
    popcount (Function.update bitset index (setUnit (bitset index) bit)) n = popcount bitset n + 1 := by
  apply count_eq_succ (i := 64 * index + bit) (by omega)
  · rw [unitBit_index _ _ hbit, hclear]
    exact Bool.false_ne_true
  · rw [unitBit_setUnit _ _ hbit, decide_eq_true rfl, Bool.or_true]
  · intro j hj
    rw [unitBit_setUnit _ _ hbit, decide_eq_false hj, Bool.or_false]

/-- Giving back a unit that is taken counts one less. -/
theorem popcount_clearUnit {bitset : ℕ → BitVec 64} (index : ℕ) {bit n : ℕ} (hbit : bit < 64)
    (hindex : index < n) (hset : (bitset index).getLsbD bit = true) :
    popcount bitset n =
      popcount (Function.update bitset index (clearUnit (bitset index) bit)) n + 1 := by
  apply count_eq_succ (i := 64 * index + bit) (by omega)
  · rw [unitBit_clearUnit _ _ hbit, decide_eq_true rfl, Bool.not_true, Bool.and_false]
    exact Bool.false_ne_true
  · rw [unitBit_index _ _ hbit, hset]
  · intro j hj
    rw [unitBit_clearUnit _ _ hbit, decide_eq_false hj, Bool.not_false, Bool.and_true]

theorem popcount_le (bitset : ℕ → BitVec 64) (n : ℕ) : popcount bitset n ≤ 64 * n := Nat.count_le _

theorem popcount_congr {bitset bitset' : ℕ → BitVec 64} {n : ℕ}
    (h : ∀ x < 64 * n, unitBit bitset x = unitBit bitset' x) : popcount bitset n = popcount bitset' n :=
  count_congr fun x hx => by rw [h x hx]

theorem wordCount_eq (word : BitVec 64) : wordCount word = popcount (fun _ => word) 1 := by
  have hcount := countSetBitsLookup_bitset (fun _ => word) 1
  have hle := popcount_le (fun _ => word) 1
  rw [Nat.mod_eq_of_lt (by omega)] at hcount
  exact hcount

/-- The assertion before the compare-and-swap fails for a word that has become full, and only then. -/
theorem wordCount_setUnit_iff (word : BitVec 64) :
    wordCount word + 1 = wordCount (setUnit word (firstClear word)) ↔ word ≠ BitVec.allOnes 64 := by
  constructor
  · rintro h rfl
    rw [setUnit_allOnes] at h
    omega
  · intro hword
    have hfirst := firstClear_clear hword
    have hbits : ∀ x < 64 * 1, unitBit (fun _ => setUnit word (firstClear word)) x =
        unitBit (Function.update (fun _ => word) 0 (setUnit word (firstClear word))) x := by
      intro x hx
      have hzero : x / 64 = 0 := by omega
      rw [unitBit, unitBit, hzero, Function.update_self]
    rw [wordCount_eq, wordCount_eq, popcount_congr hbits]
    have hone : popcount _ 1 = popcount (fun _ => word) 1 + 1 :=
      popcount_setUnit 0 hfirst.1 Nat.one_pos hfirst.2
    exact hone.symm

end NvmMalloc.Kiss
