import NvmMalloc.KissUnits

/-!
# The layout of the kiss allocator's block

Reference: `benchmark/src/kiss_alloc.c` (`layout_alloc_map`, `verify_blockcount`).

`layout_alloc_map` marks the units of its own header and bitset: first whole words, then single units.
The second loop means to shift the word and set its lowest bit, but `block->Bitset[index] << 1;` is a
statement without effect.  Every round sets the same bit, while every round takes one unit off
`free_blocks`.

* `markHeader_bits`, `markHeader_free`: the bits and the counter after the two loops.
* `layout_marks_header_iff`: the header is marked, the counter agrees and `kiss_malloc` stays out of it
  exactly if the second loop makes one round.  In all other cases `verify_blockcount` aborts.
-/

namespace NvmMalloc.Kiss

open Bits Loops Interleaving Threads

/-! ## The units of the header -/

/-- The number of units that the header and the bitset take, the last one in part. -/
def headerUnits (unitSize bitsetLength : ℕ) : ℕ := (headerLength bitsetLength - 1) / unitSize + 1

theorem headerLength_pos (n : ℕ) : 64 ≤ headerLength n := by
  unfold headerLength bitsetOffset
  omega

/-- The units of the header are those that begin in it. -/
theorem mul_lt_headerLength_iff {u n i : ℕ} (hu : 0 < u) :
    i * u < headerLength n ↔ i < headerUnits u n := by
  have hpos := headerLength_pos n
  have hle := Nat.le_div_iff_mul_le hu (x := i) (y := headerLength n - 1)
  unfold headerUnits
  omega

/-! ## The two loops -/

/-- The word loop after some rounds: the words below `index` are full, and 64 units a word are taken off
the counter. -/
structure WordsMarked (cleared : ℕ → BitVec 64) (n u length : ℕ) (k : Marking) : Prop where
  allocated : k.headerAllocated = 64 * u * k.index
  inside : k.headerAllocated < length
  bitset : ∀ i, k.bitset i = if i < k.index then BitVec.allOnes 64 else cleared i
  freeBlocks : (k.freeBlocks + 64 * k.index) % 2 ^ 32 = n % 2 ^ 32

theorem WordsMarked.word {cleared : ℕ → BitVec 64} {n u length : ℕ} {k : Marking}
    (hu : wordBytes u = 64 * u) (h : WordsMarked cleared n u length k)
    (hcond : 64 * u < length - k.headerAllocated) : WordsMarked cleared n u length (k.word u) where
  allocated := by
    show k.headerAllocated + wordBytes u = 64 * u * (k.index + 1)
    rw [hu, h.allocated]
    ring
  inside := by
    show k.headerAllocated + wordBytes u < length
    omega
  bitset := by
    intro i
    show Function.update k.bitset k.index _ i = if i < k.index + 1 then _ else _
    by_cases hi : i = k.index
    · rw [hi, Function.update_self, if_pos (Nat.lt_succ_self _)]
    · have hlt : i < k.index ↔ i < k.index + 1 := by omega
      rw [Function.update_of_ne hi, h.bitset]
      simp only [hlt]
  freeBlocks := by
    show ((k.freeBlocks + (2 ^ 32 - bitsPerUll)) % 2 ^ 32 + 64 * (k.index + 1)) % 2 ^ 32 = _
    have := h.freeBlocks
    unfold bitsPerUll
    omega

/-- The unit loop after `r` rounds: the lowest bit of one word is set, and `r` units are taken off the
counter. -/
structure UnitsMarked (words : Marking) (u length r : ℕ) (k : Marking) : Prop where
  index : k.index = words.index
  allocated : k.headerAllocated = words.headerAllocated + u * r
  inside : k.headerAllocated < length + u
  bitset : ∀ i, k.bitset i =
    if i = words.index ∧ 0 < r then words.bitset i ||| 1#64 else words.bitset i
  freeBlocks : (k.freeBlocks + r) % 2 ^ 32 = words.freeBlocks % 2 ^ 32
  small : r = 0 ∨ k.freeBlocks < 2 ^ 32

theorem UnitsMarked.unit {words : Marking} {u length r : ℕ} {k : Marking}
    (h : UnitsMarked words u length r k) (hcond : k.headerAllocated < length) :
    UnitsMarked words u length (r + 1) (k.unit u) where
  index := h.index
  allocated := by
    show k.headerAllocated + u = _
    rw [h.allocated]
    ring
  inside := by
    show k.headerAllocated + u < length + u
    omega
  bitset := by
    intro i
    show Function.update k.bitset k.index (k.bitset k.index ||| 1#64) i = _
    by_cases hi : i = k.index
    · -- the bit may be set already
      have hor : k.bitset k.index ||| 1#64 = words.bitset words.index ||| 1#64 := by
        rw [h.bitset, h.index]
        split
        case isTrue => rw [BitVec.or_assoc, BitVec.or_self]
        case isFalse => rfl
      rw [hi, Function.update_self, hor, h.index, if_pos ⟨rfl, Nat.succ_pos r⟩]
    · have hne : i ≠ words.index := h.index ▸ hi
      rw [Function.update_of_ne hi, h.bitset, if_neg fun hboth => hne hboth.1,
        if_neg fun hboth => hne hboth.1]
  freeBlocks := by
    show (decr32 k.freeBlocks + (r + 1)) % 2 ^ 32 = _
    have := h.freeBlocks
    unfold decr32
    omega
  small := by
    right
    show decr32 k.freeBlocks < 2 ^ 32
    exact Nat.mod_lt _ (by decide)

/-- The word loop ends with at most a word of units to go. -/
theorem wordLoop_marked (cleared : ℕ → BitVec 64) (n : ℕ) {u length : ℕ} (hu : wordBytes u = 64 * u)
    (hpos : 0 < u) (hlength : 0 < length) :
    ∃ k, whileLoop (fun k => decide (wordBytes u < length - k.headerAllocated)) (Marking.word u) length
        ⟨cleared, n, 0, 0⟩ = k ∧
      WordsMarked cleared n u length k ∧ length - k.headerAllocated ≤ 64 * u := by
  have hstart : WordsMarked cleared n u length ⟨cleared, n, 0, 0⟩ :=
    ⟨rfl, hlength, fun i => (if_neg (Nat.not_lt_zero i)).symm, rfl⟩
  have hround : ∀ k, WordsMarked cleared n u length k →
      decide (wordBytes u < length - k.headerAllocated) = true →
      WordsMarked cleared n u length (k.word u) ∧
        length - (k.word u).headerAllocated < length - k.headerAllocated := by
    intro k hk hcond
    have hroom : 64 * u < length - k.headerAllocated := hu ▸ of_decide_eq_true hcond
    refine ⟨hk.word hu hroom, ?_⟩
    show length - (k.headerAllocated + wordBytes u) < _
    omega
  obtain ⟨hmarked, hexit⟩ := whileLoop_spec (WordsMarked cleared n u length)
    (fun k => length - k.headerAllocated) hround hstart (Nat.sub_le _ _)
  refine ⟨_, rfl, hmarked, ?_⟩
  have hstop := of_decide_eq_false hexit
  omega

/-- The unit loop makes at least one round, and ends at the end of the header. -/
theorem unitLoop_marked (words : Marking) {u length : ℕ} (hpos : 0 < u)
    (hinside : words.headerAllocated < length) :
    ∃ r k, whileLoop (fun k => decide (k.headerAllocated < length)) (Marking.unit u) length words = k ∧
      0 < r ∧ UnitsMarked words u length r k ∧ length ≤ k.headerAllocated := by
  have hstart : UnitsMarked words u length 0 words :=
    ⟨rfl, rfl, by omega, fun i => (if_neg fun h => Nat.lt_irrefl 0 h.2).symm, rfl, .inl rfl⟩
  have hround : ∀ k, (∃ r, UnitsMarked words u length r k) →
      decide (k.headerAllocated < length) = true →
      (∃ r, UnitsMarked words u length r (k.unit u)) ∧
        length - (k.unit u).headerAllocated < length - k.headerAllocated := by
    rintro k ⟨r, hk⟩ hcond
    have hroom := of_decide_eq_true hcond
    refine ⟨⟨r + 1, hk.unit hroom⟩, ?_⟩
    show length - (k.headerAllocated + u) < _
    omega
  obtain ⟨⟨r, hmarked⟩, hexit⟩ := whileLoop_spec (fun k => ∃ r, UnitsMarked words u length r k)
    (fun k => length - k.headerAllocated) hround ⟨0, hstart⟩ (Nat.sub_le _ _)
  have hend : length ≤ _ := not_lt.mp (of_decide_eq_false hexit)
  refine ⟨r, _, rfl, Nat.pos_of_ne_zero fun hr => ?_, hmarked, hend⟩
  have hnone := hmarked.allocated
  rw [hr, Nat.mul_zero, Nat.add_zero] at hnone
  omega

/-- The rounds of both loops together are the units of the header, and at most 64 of them are single. -/
theorem rounds_eq {u length word r : ℕ} (hr : 0 < r)
    (hbelow : 64 * u * word + u * r < length + u) (habove : length ≤ 64 * u * word + u * r)
    (hword : length - 64 * u * word ≤ 64 * u) (hinside : 64 * u * word < length) :
    64 * word + r = (length - 1) / u + 1 ∧ word = ((length - 1) / u + 1 - 1) / 64 := by
  obtain ⟨r, rfl⟩ := Nat.exists_eq_add_one.mpr hr
  have hprod : (64 * word + r) * u = 64 * u * word + u * r := by ring
  have hsucc : u * (r + 1) = u * r + u := by ring
  have hdiv : (length - 1) / u = 64 * word + r := by
    apply Nat.div_eq_of_lt_le
    · rw [hprod]
      omega
    · rw [Nat.succ_mul, hprod]
      omega
  have hless : r < 64 := by
    have : u * r < u * 64 := by omega
    exact Nat.lt_of_mul_lt_mul_left this
  omega

/-- The bitset before the loops: cleared up to the end of the header. -/
def clearedBitset (ab : AllocBlock) : ℕ → BitVec 64 := fun i =>
  if i < (headerLength (ab.length / wordBytes ab.unitSize) - bitsetOffset) / 8 then 0#64 else ab.bitset i

/-- A block with the whole words below `word` marked, and the first unit of `word`; `units` are taken off
the counter. -/
structure Marked (ab : AllocBlock) (word units : ℕ) (ab' : AllocBlock) : Prop where
  bitset : ∀ i, ab'.bitset i = if i < word then BitVec.allOnes 64
    else if i = word then clearedBitset ab i ||| 1#64 else clearedBitset ab i
  freeBlocks : (ab'.freeBlocks + units) % 2 ^ 32 = ab.freeBlocks % 2 ^ 32
  small : ab'.freeBlocks < 2 ^ 32

/-- The units that the loops take off the counter are those of the header; of the units of the last word
only the first one is marked. -/
theorem markHeader_marked {ab : AllocBlock} {n : ℕ} (hpos : 0 < ab.unitSize)
    (hu : wordBytes ab.unitSize = 64 * ab.unitSize)
    (hn : n = headerUnits ab.unitSize (ab.length / wordBytes ab.unitSize)) :
    Marked ab ((n - 1) / 64) n (markHeader ab) := by
  have hlength := headerLength_pos (ab.length / wordBytes ab.unitSize)
  obtain ⟨words, hwords, hmarked, hleft⟩ := wordLoop_marked (clearedBitset ab) ab.freeBlocks hu hpos
    (show 0 < headerLength (ab.length / wordBytes ab.unitSize) by omega)
  obtain ⟨r, units, hunits, hr, hmarked', hend⟩ := unitLoop_marked words hpos hmarked.inside
  have hfields : (markHeader ab).bitset = units.bitset ∧
      (markHeader ab).freeBlocks = units.freeBlocks := by
    unfold markHeader
    rw [← hunits, ← hwords]
    exact ⟨rfl, rfl⟩
  have halloc := hmarked'.allocated
  rw [hmarked.allocated] at halloc
  have hbelow := hmarked'.inside
  have hinside := hmarked.inside
  rw [halloc] at hbelow hend
  rw [hmarked.allocated] at hinside hleft
  obtain ⟨hrounds, hword⟩ := rounds_eq hr hbelow hend hleft hinside
  have hn' : 64 * words.index + r = n := hrounds.trans hn.symm
  have hindex : words.index = (n - 1) / 64 := by
    rw [hn]
    exact hword
  constructor
  case bitset =>
    intro i
    rw [hfields.1, hmarked'.bitset, hmarked.bitset, hindex]
    by_cases hi : i = (n - 1) / 64
    · rw [if_pos ⟨hi, hr⟩, if_neg (by omega), if_neg (by omega), if_pos hi]
    · rw [if_neg fun h => hi h.1, if_neg hi]
  case freeBlocks =>
    rw [hfields.2]
    have hfree := hmarked.freeBlocks
    have hfree' := hmarked'.freeBlocks
    omega
  case small =>
    rw [hfields.2]
    exact hmarked'.small.resolve_left hr.ne'

/-! ## The marked bits and the counter -/

/-- A block before its layout: all `length / unit_size` units are free, its header of `n` units fits into
its words, and no computation wraps. -/
structure Fits (ab : AllocBlock) (n : ℕ) : Prop where
  pos : 0 < ab.unitSize
  word : wordBytes ab.unitSize = 64 * ab.unitSize
  units : n = headerUnits ab.unitSize (ab.length / wordBytes ab.unitSize)
  room : n ≤ 64 * (ab.length / wordBytes ab.unitSize)
  length : ab.length < 2 ^ 32
  freeBlocks : ab.freeBlocks = ab.length / ab.unitSize

section

variable {ab : AllocBlock} {n : ℕ} (h : Fits ab n)

include h

theorem Fits.header_pos : 0 < n := by
  rw [h.units]
  exact Nat.succ_pos _

theorem Fits.unitBytes : 64 * ab.unitSize < 2 ^ 64 := h.word ▸ Nat.mod_lt _ (by decide)

theorem Fits.units_lt : ab.length / ab.unitSize < 2 ^ 32 := lt_of_le_of_lt (Nat.div_le_self _ _) h.length

/-- What the two loops mark, in terms of units: the whole words and one unit more. -/
theorem Fits.bits {i : ℕ} (hi : i < 64 * (ab.length / wordBytes ab.unitSize)) :
    unitBit (markHeader ab).bitset i = decide (i < 64 * ((n - 1) / 64) + 1) := by
  have hclear : ∀ j < ab.length / wordBytes ab.unitSize, clearedBitset ab j = 0#64 := by
    intro j hj
    apply if_pos
    unfold headerLength bitsetOffset
    omega
  have hword : i / 64 < ab.length / wordBytes ab.unitSize := by omega
  unfold unitBit
  rw [(markHeader_marked h.pos h.word h.units).bitset, hclear _ hword]
  split
  case isTrue hbelow =>
    rw [BitVec.getLsbD_allOnes, decide_eq_true (show i < _ by omega)]
    exact decide_eq_true (Nat.mod_lt _ (by decide))
  case isFalse =>
    split
    case isTrue hlast =>
      rw [BitVec.zero_or, BitVec.getLsbD_one]
      have hbit : i % 64 = 0 ↔ i < 64 * ((n - 1) / 64) + 1 := by omega
      simp [hbit]
    case isFalse hother =>
      rw [BitVec.getLsbD_zero, decide_eq_false (by omega)]

theorem Fits.popcount_eq :
    popcount (markHeader ab).bitset (ab.length / wordBytes ab.unitSize) = 64 * ((n - 1) / 64) + 1 := by
  have hroom := h.room
  have hpos := h.header_pos
  calc popcount (markHeader ab).bitset (ab.length / wordBytes ab.unitSize)
      = Nat.count (fun i => i < 64 * ((n - 1) / 64) + 1) (64 * (ab.length / wordBytes ab.unitSize)) :=
        count_congr fun i hi => by rw [h.bits hi, decide_eq_true_iff]
    _ = 64 * ((n - 1) / 64) + 1 := count_lt (by omega)

/-- The counter goes down by the units of the header. -/
theorem Fits.free : (markHeader ab).freeBlocks + n = ab.length / ab.unitSize := by
  have hmarked := markHeader_marked h.pos h.word h.units
  have hsmall := hmarked.small
  have hsum := hmarked.freeBlocks
  have hroom := h.room
  have hunits := h.units_lt
  have hle : 64 * (ab.length / wordBytes ab.unitSize) ≤ ab.length / ab.unitSize := by
    rw [h.word, Nat.mul_comm 64 ab.unitSize, ← Nat.div_div_eq_div_mul]
    exact Nat.mul_div_le _ _
  rw [h.freeBlocks] at hsum
  omega

/-- `verify_blockcount` accepts the layout exactly if one unit was marked singly. -/
theorem Fits.layout (hbase : ab.baseAddr ≠ 0) :
    layoutAllocMap ab = if n % 64 = 1 then .ok (markHeader ab) else .error .assertFailed := by
  have hpos := h.header_pos
  have hcount := h.popcount_eq
  have hsum := h.free
  have hunits := h.units_lt
  have hverify : verifyBlockcount (markHeader ab) =
      if n % 64 = 1 then .ok () else .error .assertFailed := by
    unfold verifyBlockcount
    simp only [bitsPerUll, countSetBitsLookup_bitset]
    apply if_congr _ rfl rfl
    show ab.baseAddr ≠ 0 ∧ (popcount (markHeader ab).bitset (ab.length / wordBytes ab.unitSize) %
      2 ^ 32 + (markHeader ab).freeBlocks) % 2 ^ 32 = ab.length / ab.unitSize ↔ _
    rw [hcount]
    omega
  have hword : wordBytes ab.unitSize ≠ 0 := by
    have := h.word
    have := h.pos
    omega
  unfold layoutAllocMap
  rw [if_neg hword, hverify]
  by_cases hone : n % 64 = 1
  · rw [if_pos hone, if_pos hone]
  · rw [if_neg hone, if_neg hone]

end

/-! ## Blocks as they are mapped -/

theorem mapLength_lt (largePageCount : ℕ) : mapLength largePageCount < 2 ^ 32 := Nat.mod_lt _ (by decide)

/-- A mapping is a multiple of a large page, also after the multiplication has wrapped. -/
theorem largePageSize_dvd_mapLength (largePageCount : ℕ) : largePageSize ∣ mapLength largePageCount := by
  have hwrap : largePageSize ∣ 2 ^ 32 := by decide
  exact (Nat.dvd_mod_iff hwrap).mpr (Nat.dvd_mul_right _ _)

/-- The units of a mapping that is not empty are counted in whole words, without wrapping. -/
theorem wordBytes_of_dvd {u pages : ℕ} (hdvd : 64 * u ∣ mapLength pages)
    (hlength : 0 < mapLength pages) : 0 < u ∧ wordBytes u = 64 * u := by
  have hle := Nat.le_of_dvd hlength hdvd
  have hlt := mapLength_lt pages
  have hpos : 0 < u := Nat.pos_of_ne_zero fun hu => by
    rw [hu, Nat.mul_zero] at hdvd
    exact absurd (Nat.eq_zero_of_zero_dvd hdvd) hlength.ne'
  refine ⟨hpos, ?_⟩
  unfold wordBytes bitsPerUll
  omega

/-- The header of a mapping fits into it. -/
theorem headerUnits_le {u pages : ℕ} (hdvd : 64 * u ∣ mapLength pages) (hlength : 0 < mapLength pages) :
    headerUnits u (mapLength pages / (64 * u)) ≤ 64 * (mapLength pages / (64 * u)) := by
  obtain ⟨hpos, -⟩ := wordBytes_of_dvd hdvd hlength
  have hpage := Nat.le_of_dvd hlength (largePageSize_dvd_mapLength pages)
  have hlen : mapLength pages / (64 * u) * (64 * u) = mapLength pages := Nat.div_mul_cancel hdvd
  generalize mapLength pages / (64 * u) = words at hlen ⊢
  have hwords : words * (64 * 1) ≤ words * (64 * u) := Nat.mul_le_mul_left _ (by omega)
  have hend : 64 * words * u = words * (64 * u) := by ring
  have hiff := mul_lt_headerLength_iff (u := u) (n := words) (i := 64 * words) hpos
  rw [hend, hlen] at hiff
  unfold headerLength bitsetOffset at hiff
  unfold largePageSize at hpage
  omega

/-- With a header shorter than a word of units, the word loop makes no round. -/
theorem wordLoop_none {u length : ℕ} (h : length ≤ wordBytes u) (cleared : ℕ → BitVec 64) (n : ℕ) :
    whileLoop (fun k => decide (wordBytes u < length - k.headerAllocated)) (Marking.word u) length
      ⟨cleared, n, 0, 0⟩ = ⟨cleared, n, 0, 0⟩ := by
  cases length with
  | zero => rfl
  | succ length => exact if_neg (by simpa using h)

/-- A mapping of whole words fits, if it is not empty. -/
theorem fits_mappedBlock (baseAddr : ℕ) (file : ℕ → BitVec 64) {u pages : ℕ}
    (hdvd : 64 * u ∣ mapLength pages) (hlength : 0 < mapLength pages) :
    Fits (mappedBlock baseAddr file u pages) (headerUnits u (mapLength pages / (64 * u))) := by
  obtain ⟨hpos, hu⟩ := wordBytes_of_dvd hdvd hlength
  have hroom := headerUnits_le hdvd hlength
  have hlt := mapLength_lt pages
  rw [← hu] at hroom ⊢
  exact ⟨hpos, hu, rfl, hroom, hlt, Nat.mod_eq_of_lt (lt_of_le_of_lt (Nat.div_le_self _ _) hlt)⟩

/-- A block of no bytes has no units, and the loop takes some off. -/
theorem markHeader_empty {ab : AllocBlock} (hlength : ab.length = 0) (hfree : ab.freeBlocks = 0)
    (hword : wordBytes ab.unitSize ≠ 0) : (markHeader ab).freeBlocks ≠ 0 := by
  have hpos : 0 < ab.unitSize := Nat.pos_of_ne_zero fun hu => by
    rw [hu] at hword
    exact hword rfl
  have hheader : headerLength (ab.length / wordBytes ab.unitSize) = 64 := by
    rw [hlength, Nat.zero_div]
    rfl
  have hbytes : headerLength (ab.length / wordBytes ab.unitSize) ≤ wordBytes ab.unitSize := by
    rw [hheader]
    unfold wordBytes bitsPerUll at *
    omega
  have hinside : 0 < headerLength (ab.length / wordBytes ab.unitSize) := by omega
  obtain ⟨r, units, hunits, hr, hmarked, -⟩ :=
    unitLoop_marked ⟨clearedBitset ab, ab.freeBlocks, 0, 0⟩ hpos hinside
  have hfields : (markHeader ab).freeBlocks = units.freeBlocks := by
    unfold markHeader
    rw [← hunits, ← wordLoop_none hbytes (clearedBitset ab) ab.freeBlocks]
    rfl
  have halloc : units.headerAllocated = 0 + ab.unitSize * r := hmarked.allocated
  have hbelow := hmarked.inside
  have hsum : (units.freeBlocks + r) % 2 ^ 32 = ab.freeBlocks % 2 ^ 32 := hmarked.freeBlocks
  have hrounds : r < 65 := by
    have hless : ab.unitSize * r < ab.unitSize * 65 := by omega
    exact Nat.lt_of_mul_lt_mul_left hless
  rw [hfields]
  omega

/-! ## The header is marked -/

/-- `layout_alloc_map` turns `ab` into `ab'` and marks exactly the units of its own header and bitset:
the counter agrees with the bits, and no call ever returns an address inside. -/
structure MarksHeader (ab ab' : AllocBlock) : Prop where
  returns : layoutAllocMap ab = .ok ab'
  marks : ∀ i < 64 * ab'.bitsetLength,
    unitBit ab'.bitset i = true ↔ i * ab'.unitSize < headerLength ab'.bitsetLength
  sum : popcount ab'.bitset ab'.bitsetLength + ab'.freeBlocks = ab'.length / ab'.unitSize
  outside : ∀ {ι : Type} [DecidableEq ι] {s : KissSys ι},
    Runs (· = ⟨ab', fun _ => .idle, []⟩) kissStep (fun _ _ => True) s →
    ∀ g ∈ s.live, ab'.baseAddr + headerLength ab'.bitsetLength ≤ g.address

/-- Once the bits of the header are set, no call returns an address inside it. -/
theorem outside_of_marks {ab : AllocBlock} (hlaid : Laid ab) (hunitBytes : 64 * ab.unitSize < 2 ^ 64)
    (hwhole : ab.WholeWords)
    (hmarks : ∀ i < 64 * ab.bitsetLength,
      unitBit ab.bitset i = true ↔ i * ab.unitSize < headerLength ab.bitsetLength)
    {ι : Type} [DecidableEq ι] {s : KissSys ι}
    (hs : Runs (· = ⟨ab, fun _ => .idle, []⟩) kissStep (fun _ _ => True) s) :
    ∀ g ∈ s.live, ab.baseAddr + headerLength ab.bitsetLength ≤ g.address := by
  intro g hg
  have hinit : KissSys.Init (⟨ab, fun _ => .idle, []⟩ : KissSys ι) := ⟨hlaid, fun _ => rfl, rfl⟩
  have hinv := kissInv_of_runs hinit hunitBytes hwhole hs
  have hgranted := hinv.informed.granted g hg
  obtain ⟨hbase, hlength, hunitSize⟩ : s.block.baseAddr = ab.baseAddr ∧ s.block.length = ab.length ∧
      s.block.unitSize = ab.unitSize := AllocBlock.eq_of_shape hinv.shape
  have hwords : s.block.bitsetLength = ab.bitsetLength := by
    rw [hinv.informed.cut.bitsetLength, hlaid.bitsetLength, hlength, hunitSize]
  have hunit : g.unit < 64 * ab.bitsetLength := by
    have hword := hgranted.word
    have hbit := hgranted.bit
    unfold Grant.unit
    omega
  have haddress := hinv.informed.cut.address_eq hgranted.whole hgranted.word hgranted.bit
  rw [hgranted.address, Grant.unit, haddress, ← Grant.unit, hbase, hunitSize]
  by_contra hinside
  have hset := (hmarks g.unit hunit).mpr (by omega)
  exact (untouched_of_runs hinit hunitBytes hwhole hset hs).live g hg rfl

/-- The layout of a mapping without bytes does not add up. -/
theorem not_marksHeader_of_empty {ab ab' : AllocBlock} (hlength : ab.length = 0)
    (hfree : ab.freeBlocks = 0) : ¬ MarksHeader ab ab' := by
  intro h
  have hreturns := h.returns
  have hsum := h.sum
  unfold layoutAllocMap at hreturns
  split at hreturns
  case isTrue => cases hreturns
  case isFalse hword =>
    split at hreturns
    case h_1 =>
      cases hreturns
      have hzero : (markHeader ab).length / (markHeader ab).unitSize = 0 := by
        show ab.length / ab.unitSize = 0
        rw [hlength, Nat.zero_div]
      exact markHeader_empty hlength hfree hword (by omega)
    case h_2 => cases hreturns

/-- A layout that `verify_blockcount` accepts marks its header. -/
theorem Fits.marksHeader {ab ab' : AllocBlock} {n : ℕ} (h : Fits ab n) (hbase : ab.baseAddr ≠ 0)
    (hwhole : ab.WholeWords) (hlayout : layoutAllocMap ab = .ok ab') : MarksHeader ab ab' := by
  have hreturns := hlayout
  rw [h.layout hbase] at hlayout
  split at hlayout
  case isFalse => cases hlayout
  case isTrue hone =>
    obtain rfl := Except.ok.inj hlayout
    have hall : 64 * ((n - 1) / 64) + 1 = n := by omega
    have hsum :
        popcount (markHeader ab).bitset (markHeader ab).bitsetLength + (markHeader ab).freeBlocks =
        (markHeader ab).length / (markHeader ab).unitSize := by
      have hcount := h.popcount_eq
      have hfree := h.free
      show popcount (markHeader ab).bitset (ab.length / wordBytes ab.unitSize) + _ =
        ab.length / ab.unitSize
      omega
    have hmarks : ∀ i < 64 * (markHeader ab).bitsetLength, unitBit (markHeader ab).bitset i = true ↔
        i * (markHeader ab).unitSize < headerLength (markHeader ab).bitsetLength := by
      intro i hi
      rw [h.bits hi, hall, decide_eq_true_iff, h.units]
      exact (mul_lt_headerLength_iff h.pos).symm
    have hunits : (markHeader ab).length / (markHeader ab).unitSize < 2 ^ 32 := h.units_lt
    have hlaid : Laid (markHeader ab) :=
      ⟨⟨Nat.pos_of_ne_zero hbase, h.length, rfl⟩, by omega, by rw [hsum, Nat.mod_eq_of_lt hunits]⟩
    exact ⟨hreturns, hmarks, hsum, fun hs => outside_of_marks hlaid h.unitBytes hwhole hmarks hs⟩

/-- In all other cases `verify_blockcount` aborts. -/
theorem Fits.exists_marksHeader_iff {ab : AllocBlock} {n : ℕ} (h : Fits ab n) (hbase : ab.baseAddr ≠ 0)
    (hwhole : ab.WholeWords) : (∃ ab', MarksHeader ab ab') ↔ n % 64 = 1 := by
  have hlayout := h.layout hbase
  constructor
  · rintro ⟨ab', hmarks⟩
    by_contra hone
    rw [hmarks.returns, if_neg hone] at hlayout
    cases hlayout
  · intro hone
    rw [if_pos hone] at hlayout
    exact ⟨_, h.marksHeader hbase hwhole hlayout⟩

/-- The words of a mapping are whole if its length is a multiple of 64 units. -/
theorem wholeWords_mappedBlock {baseAddr u pages : ℕ} {file : ℕ → BitVec 64}
    (hdvd : 64 * u ∣ mapLength pages) (hlength : 0 < mapLength pages) :
    (mappedBlock baseAddr file u pages).WholeWords := by
  obtain ⟨hpos, hword⟩ := wordBytes_of_dvd hdvd hlength
  have hlt := mapLength_lt pages
  have hcancel : mapLength pages / (64 * u) * (64 * u) = mapLength pages := Nat.div_mul_cancel hdvd
  have hle : mapLength pages / (64 * u) * (64 * 1) ≤ mapLength pages / (64 * u) * (64 * u) :=
    Nat.mul_le_mul_left _ (Nat.mul_le_mul_left _ hpos)
  show mapLength pages / wordBytes u % 2 ^ 32 * 64 % 2 ^ 32 * u % 2 ^ 64 = mapLength pages
  rw [hword]
  generalize mapLength pages / (64 * u) = words at *
  rw [Nat.mod_eq_of_lt (show words < 2 ^ 32 by omega),
    Nat.mod_eq_of_lt (show words * 64 < 2 ^ 32 by omega),
    Nat.mul_assoc, hcancel, Nat.mod_eq_of_lt (by omega)]

/-- **The layout marks its header exactly if the second loop makes one round.**  The units of the header
are then one more than a multiple of 64, the case in which the lost shift does not matter. -/
theorem layout_marks_header_iff {baseAddr unitSize largePageCount : ℕ} {file : ℕ → BitVec 64}
    (hbase : baseAddr ≠ 0) (hdvd : 64 * unitSize ∣ mapLength largePageCount) :
    (∃ ab', MarksHeader (mappedBlock baseAddr file unitSize largePageCount) ab') ↔
      0 < mapLength largePageCount ∧
        headerUnits unitSize (mapLength largePageCount / (64 * unitSize)) % 64 = 1 := by
  rcases Nat.eq_zero_or_pos (mapLength largePageCount) with hzero | hlength
  · refine iff_of_false ?_ fun h => absurd h.1 (by omega)
    rintro ⟨ab', h⟩
    refine not_marksHeader_of_empty hzero ?_ h
    show mapLength largePageCount / unitSize % 2 ^ 32 = 0
    rw [hzero, Nat.zero_div, Nat.zero_mod]
  · have hfits := fits_mappedBlock baseAddr file hdvd hlength
    rw [hfits.exists_marksHeader_iff hbase (wholeWords_mappedBlock hdvd hlength)]
    exact (and_iff_right hlength).symm

/-- Units of 64 bytes on one large page: a header of 65 units, one word and the first unit of the
next. -/
theorem layout_marks_header_small_units :
    ∃ ab', MarksHeader (mappedBlock (2 ^ 21) (fun _ => 0#64) 64 1) ab' :=
  (layout_marks_header_iff (by decide) (by decide)).mpr ⟨by decide, by decide⟩

/-- **The shift that is lost.**  Units of 256 bytes on two large pages, 256 words: `create_alloc_map`
hands the block to `layout_alloc_map`.  The header takes nine units, of which only the first is
marked, and `verify_blockcount` aborts. -/
theorem layout_marks_one_of_nine :
    createAllocMap (2 ^ 21) (fun _ => 0#64) 256 2 =
      layoutAllocMap (mappedBlock (2 ^ 21) (fun _ => 0#64) 256 2) ∧
    headerUnits 256 (markHeader (mappedBlock (2 ^ 21) (fun _ => 0#64) 256 2)).bitsetLength = 9 ∧
    unitBit (markHeader (mappedBlock (2 ^ 21) (fun _ => 0#64) 256 2)).bitset 0 = true ∧
    unitBit (markHeader (mappedBlock (2 ^ 21) (fun _ => 0#64) 256 2)).bitset 1 = false ∧
    layoutAllocMap (mappedBlock (2 ^ 21) (fun _ => 0#64) 256 2) = .error .assertFailed ∧
    ¬ ∃ ab', MarksHeader (mappedBlock (2 ^ 21) (fun _ => 0#64) 256 2) ab' := by
  have hlayout : layoutAllocMap (mappedBlock (2 ^ 21) (fun _ => 0#64) 256 2) = .error .assertFailed :=
    Fits.layout (n := 9) ⟨by decide, by decide, by decide, by decide, by decide, by decide⟩ (by decide)
  refine ⟨?_, by decide, by decide +kernel, by decide +kernel, hlayout, ?_⟩
  · simp only [createAllocMap]
    rw [if_neg (by decide), if_pos (by decide), if_neg (by decide)]
  rintro ⟨ab', h⟩
  have hreturns := h.returns
  rw [hlayout] at hreturns
  cases hreturns

/-! ## Blocks as they are created -/

/-- What `layout_alloc_map` returns, when it returns. -/
theorem eq_markHeader_of_layout {ab ab' : AllocBlock} (h : layoutAllocMap ab = .ok ab') :
    ab' = markHeader ab ∧ ab.baseAddr ≠ 0 ∧ wordBytes ab.unitSize ≠ 0 := by
  unfold layoutAllocMap at h
  split at h
  case isTrue => cases h
  case isFalse hword =>
    split at h
    case h_1 hverify =>
      simp only [verifyBlockcount] at hverify
      split at hverify
      case isTrue hasserts => exact ⟨(Except.ok.inj h).symm, hasserts.1, hword⟩
      case isFalse => cases hverify
    case h_2 => cases h

/-- A block that was created: the hints are as they were set. -/
structure Created (ab : AllocBlock) : Prop extends Cut ab where
  hints : ∀ cpu, ab.cpuIndexHint cpu = cpu + 1
  nextIndexHint : ab.nextIndexHint = cpuIndexHints + 1
  largestIndexHint : ab.largestIndexHint = ab.bitsetLength
  enough : cpuIndexHints < ab.largestIndexHint

theorem created_of_createAllocMap {baseAddr unitSize largePageCount : ℕ} {file : ℕ → BitVec 64}
    {ab : AllocBlock} (h : createAllocMap baseAddr file unitSize largePageCount = .ok ab) :
    Created ab := by
  simp only [createAllocMap] at h
  split at h
  case isTrue => cases h
  case isFalse =>
    split at h
    case isFalse => cases h
    case isTrue hhints =>
      split at h
      case isTrue => cases h
      case isFalse =>
        obtain ⟨rfl, hbase, -⟩ := eq_markHeader_of_layout h
        exact ⟨⟨Nat.pos_of_ne_zero hbase, mapLength_lt largePageCount, rfl⟩, fun _ => rfl, rfl, rfl,
          hhints 127 (by decide)⟩

end NvmMalloc.Kiss
