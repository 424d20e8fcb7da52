import Mathlib.Data.Nat.ModEq
import NvmMalloc.KissBlock
import NvmMalloc.Lib.Interleaving
import NvmMalloc.Lib.Threads

/-!
# Concurrent calls of the kiss allocator

Reference: `benchmark/src/kiss_alloc.c` (`find_first_available`, `kiss_malloc`, `kiss_free`).

Any number of threads run `kiss_malloc` and `kiss_free` on one block.  Between two atomic accesses of
shared memory a thread is at a place of `Pc`: the load of `free_blocks`, the two loads of a word, the
compare-and-swap and the update of the counter are steps of their own.  The hints, which `KissHints`
is about, may select any word of the bitset.

A grant remembers, for an address that was returned, the word and the bit that the compare-and-swap had
set; `kiss_free` computes them anew from the address.

* `KissInv`: a unit whose bit is set on behalf of a call or a live address has one such owner, and the
  counter differs from the bitset by the calls that have swapped and not yet counted.
* `units_handed_out_once`: the live addresses are distinct units, a free clears the bit of its
  allocation, and when no call is in flight the sum of set bits and free blocks is the initial one.  This
  needs that 64 units are less than 2^64 bytes: with larger units the address of a unit wraps around,
  and a free clears the bit of another one (`units_handed_out_wrapped`).
-/

namespace NvmMalloc.Kiss

open Bits Interleaving Threads

/-! ## The threads -/

/-- An address that `kiss_malloc` has returned, and the bit it has set for it. -/
structure Grant where
  address : ℕ
  word : ℕ
  bit : ℕ
deriving DecidableEq, Repr

/-- The unit of the bit. -/
def Grant.unit (g : Grant) : ℕ := 64 * g.word + g.bit

/-- Where a thread is. -/
inductive Pc where
  | idle
  /-- `while (alloc_block->free_blocks > 0)` -/
  | guard
  /-- `~0 == block->Bitset[index]` -/
  | test (index : ℕ)
  /-- `current = block->Bitset[index]` -/
  | load (index : ℕ)
  /-- `__sync_val_compare_and_swap` of `find_first_available` -/
  | swap (index : ℕ) (current : BitVec 64)
  /-- `__sync_fetch_and_sub(&alloc_block->free_blocks, 1)`, after bit `bit` of word `index` was set -/
  | sub (index bit : ℕ)
  /-- `current = bh->Bitset[index]` in the `kiss_free` of a grant -/
  | freeLoad (g : Grant) (index bit : ℕ)
  /-- `__sync_val_compare_and_swap` of `kiss_free` -/
  | freeSwap (g : Grant) (index bit : ℕ) (current : BitVec 64)
  /-- `__sync_fetch_and_add(&kiss_alloc_block->free_blocks, 1)` -/
  | freeAdd
  /-- An assertion has failed. -/
  | aborted
deriving DecidableEq

/-- The block, the threads, and the addresses that were returned and not yet freed. -/
structure KissSys (ι : Type) where
  block : AllocBlock
  pc : ι → Pc
  live : List Grant

/-- A call begins, or a thread takes its next step; `hint` is the word the hints select if it needs
one. -/
inductive KissAction (ι : Type) where
  | malloc (i : ι) (size : ℕ)
  | free (i : ι) (g : Grant)
  | step (i : ι) (hint : ℕ)

section

variable {ι : Type} [DecidableEq ι]

/-- Thread `i` goes to `q`. -/
def KissSys.goto (s : KissSys ι) (i : ι) (q : Pc) : KissSys ι :=
  { s with pc := Function.update s.pc i q }

/-- `block->Bitset[index] = word` -/
def KissSys.store (s : KissSys ι) (index : ℕ) (word : BitVec 64) : KissSys ι :=
  { s with block := { s.block with bitset := Function.update s.block.bitset index word } }

/-- An update of `free_blocks`. -/
def KissSys.count (s : KissSys ι) (update : ℕ → ℕ) : KissSys ι :=
  { s with block := { s.block with freeBlocks := update s.block.freeBlocks } }

/-- The hints select a word. -/
def KissSys.select (s : KissSys ι) (i : ι) (hint : ℕ) : Option (KissSys ι) :=
  if hint < s.block.bitsetLength then some (s.goto i (.test hint)) else none

/-- `kiss_malloc` returns the unit of which it has set the bit. -/
def KissSys.grant (s : KissSys ι) (index bit : ℕ) : KissSys ι :=
  let offset := (bit + index * 64) % 2 ^ 32
  if offset = noBlock then s else { s with live := ⟨s.block.address offset, index, bit⟩ :: s.live }

/-- The next step of a thread. -/
def KissSys.threadStep (s : KissSys ι) (i : ι) (hint : ℕ) : Option (KissSys ι) :=
  match s.pc i with
  | .idle => none
  | .guard => if s.block.freeBlocks = 0 then some (s.goto i .idle) else s.select i hint
  | .test index =>
    if s.block.bitset index = BitVec.allOnes 64 then s.select i hint else some (s.goto i (.load index))
  | .load index =>
    let current := s.block.bitset index
    if wordCount current + 1 = wordCount (setUnit current (firstClear current)) then
      some (s.goto i (.swap index current))
    else
      some (s.goto i .aborted)
  | .swap index current =>
    if s.block.bitset index = current then
      some ((s.store index (setUnit current (firstClear current))).goto i
        (.sub index (firstClear current)))
    else
      some (s.goto i .guard)
  | .sub index bit => some (((s.count decr32).grant index bit).goto i .idle)
  | .freeLoad g index bit =>
    let current := s.block.bitset index
    if clearUnit current bit = current then some (s.goto i .aborted)
    else some (s.goto i (.freeSwap g index bit current))
  | .freeSwap g index bit current =>
    if s.block.bitset index = current then
      some ((s.store index (clearUnit current bit)).goto i .freeAdd)
    else
      some (s.goto i (.freeLoad g index bit))
  | .freeAdd => some ((s.count incr32).goto i .idle)
  | .aborted => none

/-- One action.  `kiss_free` is given a live address, which is not live any more. -/
def kissStep (s : KissSys ι) : KissAction ι → Option (KissSys ι)
  | .malloc i size =>
    if s.pc i = .idle then
      if size ≤ s.block.unitSize ∧ s.block.WholeWords then some (s.goto i .guard)
      else some (s.goto i .aborted)
    else
      none
  | .free i g =>
    if s.pc i = .idle ∧ g ∈ s.live then
      if g.address = 0 then some { s with live := s.live.erase g }
      else
        match s.block.locate g.address with
        | .ok (index, bit) => some ({ s with live := s.live.erase g }.goto i (.freeLoad g index bit))
        | .error _ => some ({ s with live := s.live.erase g }.goto i .aborted)
    else
      none
  | .step i hint => s.threadStep i hint

end

/-! ## The words and bits of an address -/

/-- How a block is cut. -/
structure Cut (ab : AllocBlock) : Prop where
  baseAddr : 0 < ab.baseAddr
  length : ab.length < 2 ^ 32
  bitsetLength : ab.bitsetLength = ab.length / wordBytes ab.unitSize

/-- A block as `verify_blockcount` accepts it. -/
structure Laid (ab : AllocBlock) : Prop extends Cut ab where
  freeBlocks : ab.freeBlocks < 2 ^ 32
  sum : (popcount ab.bitset ab.bitsetLength + ab.freeBlocks) % 2 ^ 32 = ab.length / ab.unitSize

/-- A block whose words are counted in bytes without wrapping. -/
structure Sized (ab : AllocBlock) : Prop extends Cut ab where
  unitSize : 64 * ab.unitSize < 2 ^ 64

/-- A block that has a word and is cut into whole words. -/
theorem Sized.length_eq {ab : AllocBlock} (h : Sized ab) (hwhole : ab.WholeWords) {index : ℕ}
    (hindex : index < ab.bitsetLength) :
    ab.length = 64 * ab.unitSize * ab.bitsetLength ∧ wordBytes ab.unitSize = 64 * ab.unitSize ∧
      0 < ab.unitSize := by
  have hword : wordBytes ab.unitSize = 64 * ab.unitSize := by
    unfold wordBytes bitsPerUll
    rw [Nat.mul_comm, Nat.mod_eq_of_lt h.unitSize]
  have hwords := h.bitsetLength
  have hpos : 0 < ab.unitSize := Nat.pos_of_ne_zero fun hzero => by
    -- a unit of no bytes leaves a block of no words
    rw [hword, hzero, Nat.mul_zero, Nat.div_zero] at hwords
    omega
  have hlength := h.length
  have hle : ab.bitsetLength * (64 * ab.unitSize) ≤ ab.length := by
    rw [hwords, hword]
    exact Nat.div_mul_le_self _ _
  have hle' : ab.bitsetLength * (64 * 1) ≤ ab.bitsetLength * (64 * ab.unitSize) :=
    Nat.mul_le_mul_left _ (Nat.mul_le_mul_left _ hpos)
  have hprod : ab.bitsetLength * 64 * ab.unitSize = ab.bitsetLength * (64 * ab.unitSize) := by ring
  unfold AllocBlock.WholeWords at hwhole
  rw [← hwords, Nat.mod_eq_of_lt (show ab.bitsetLength < 2 ^ 32 by omega),
    Nat.mod_eq_of_lt (show ab.bitsetLength * 64 < 2 ^ 32 by omega), hprod,
    Nat.mod_eq_of_lt (show ab.bitsetLength * (64 * ab.unitSize) < 2 ^ 64 by omega)] at hwhole
  exact ⟨by rw [← hwhole]; ring, hword, hpos⟩

/-- The address of a unit of a word does not wrap around. -/
theorem Sized.address_eq {ab : AllocBlock} (h : Sized ab) (hwhole : ab.WholeWords) {word bit : ℕ}
    (hword : word < ab.bitsetLength) (hbit : bit < 64) :
    ab.address (64 * word + bit) = ab.baseAddr + (64 * word + bit) * ab.unitSize := by
  obtain ⟨hlen, -, hpos⟩ := h.length_eq hwhole hword
  have hlt : (64 * word + bit) * ab.unitSize < 64 * ab.bitsetLength * ab.unitSize :=
    Nat.mul_lt_mul_of_pos_right (by omega) hpos
  have hprod : 64 * ab.bitsetLength * ab.unitSize = 64 * ab.unitSize * ab.bitsetLength := by ring
  have hlength := h.length
  unfold AllocBlock.address
  rw [Nat.mod_eq_of_lt (by omega)]

/-- The word and the bit of a unit, from its address. -/
theorem Sized.locate_address {ab : AllocBlock} (h : Sized ab) (hwhole : ab.WholeWords) {word bit : ℕ}
    (hword : word < ab.bitsetLength) (hbit : bit < 64) {index bit' : ℕ}
    (hloc : ab.locate (ab.address (64 * word + bit)) = .ok (index, bit')) :
    index = word ∧ bit' = bit := by
  obtain ⟨hlen, hbytes, hpos⟩ := h.length_eq hwhole hword
  have hoffset : ab.address (64 * word + bit) - ab.baseAddr =
      bit * ab.unitSize + word * (64 * ab.unitSize) := by
    rw [h.address_eq hwhole hword hbit, Nat.add_sub_cancel_left]
    ring
  have hlow : bit * ab.unitSize < 64 * ab.unitSize := Nat.mul_lt_mul_of_pos_right hbit hpos
  have hindex : (bit * ab.unitSize + word * (64 * ab.unitSize)) / (64 * ab.unitSize) = word := by
    rw [Nat.add_mul_div_right _ _ (by omega), Nat.div_eq_of_lt hlow, Nat.zero_add]
  have hsmall : word < 2 ^ 32 := by
    have hle : 64 * 1 * ab.bitsetLength ≤ 64 * ab.unitSize * ab.bitsetLength :=
      Nat.mul_le_mul_right _ (Nat.mul_le_mul_left _ hpos)
    have := h.length
    omega
  have hrest : (bit * ab.unitSize + word * (64 * ab.unitSize) +
      (2 ^ 64 - word * ab.unitSize * 64 % 2 ^ 64)) % 2 ^ 64 = bit * ab.unitSize := by
    have hend : (word + 1) * (64 * ab.unitSize) ≤ ab.bitsetLength * (64 * ab.unitSize) :=
      Nat.mul_le_mul_right _ hword
    have hlength := h.length
    rw [show word * ab.unitSize * 64 = word * (64 * ab.unitSize) by ring]
    rw [hlen, Nat.mul_comm] at hlength
    rw [Nat.succ_mul] at hend
    omega
  unfold AllocBlock.locate at hloc
  simp only [hoffset, hbytes, hindex, Nat.mod_eq_of_lt hsmall, bitsPerUll, hrest,
    Nat.mul_div_cancel _ hpos] at hloc
  split at hloc
  case isTrue =>
    obtain ⟨rfl, rfl⟩ := Prod.mk.inj (Except.ok.inj hloc)
    exact ⟨rfl, rfl⟩
  case isFalse => cases hloc

/-- `allocated_block` does not wrap, and is not the value for failure. -/
theorem Sized.offset_eq {ab : AllocBlock} (h : Sized ab) (hwhole : ab.WholeWords) {index bit : ℕ}
    (hindex : index < ab.bitsetLength) (hbit : bit < 64) :
    (bit + index * 64) % 2 ^ 32 = 64 * index + bit ∧ 64 * index + bit ≠ noBlock := by
  obtain ⟨hlen, -, hpos⟩ := h.length_eq hwhole hindex
  have hle : 64 * 1 * ab.bitsetLength ≤ 64 * ab.unitSize * ab.bitsetLength :=
    Nat.mul_le_mul_right _ (Nat.mul_le_mul_left _ hpos)
  have hlength := h.length
  unfold noBlock
  omega

/-! ## What a thread holds and knows -/

/-- The bit of unit `x` is set on behalf of the thread: its allocation has not returned yet, or its free
has not cleared it yet. -/
def Pc.Holds : Pc → ℕ → Prop
  | .sub index bit, x => x = 64 * index + bit
  | .freeLoad g _ _, x => x = g.unit
  | .freeSwap g _ _ _, x => x = g.unit
  | _, _ => False

/-- The thread has set a bit and not yet taken it off `free_blocks`. -/
def Pc.OwesSub : Pc → Prop
  | .sub _ _ => True
  | _ => False

/-- The thread has cleared a bit and not yet added it to `free_blocks`. -/
def Pc.OwesAdd : Pc → Prop
  | .freeAdd => True
  | _ => False

/-- The grant is a unit of the block, at the address of that unit. -/
structure Granted (ab : AllocBlock) (g : Grant) : Prop where
  whole : ab.WholeWords
  word : g.word < ab.bitsetLength
  bit : g.bit < 64
  address : g.address = ab.address g.unit

/-- What a thread knows of the values it carries.  A free carries the word and the bit of its grant. -/
def Pc.Knows (ab : AllocBlock) : Pc → Prop
  | .guard => ab.WholeWords
  | .test index => ab.WholeWords ∧ index < ab.bitsetLength
  | .load index => ab.WholeWords ∧ index < ab.bitsetLength
  | .swap index current => ab.WholeWords ∧ index < ab.bitsetLength ∧ current ≠ BitVec.allOnes 64
  | .sub index bit => ab.WholeWords ∧ index < ab.bitsetLength ∧ bit < 64
  | .freeLoad g index bit => Granted ab g ∧ index = g.word ∧ bit = g.bit
  | .freeSwap g index bit _ => Granted ab g ∧ index = g.word ∧ bit = g.bit
  | _ => True

/-! ## What an action does -/

section

variable {ι : Type} [DecidableEq ι]

/-- The six things an action can do.  Only four of them touch what is shared. -/
inductive Move (s : KissSys ι) : KissSys ι → Prop where
  /-- A load, a lost swap or a failed assertion: the thread holds no more than before. -/
  | quiet {i : ι} {q : Pc} (hfrom : ¬ (s.pc i).OwesSub ∧ ¬ (s.pc i).OwesAdd)
      (hto : ¬ q.OwesSub ∧ ¬ q.OwesAdd) (hholds : ∀ x, q.Holds x → (s.pc i).Holds x)
      (hknows : q.Knows s.block) : Move s (s.goto i q)
  /-- A compare-and-swap sets a bit. -/
  | take {i : ι} {index : ℕ} (hpc : s.pc i = .swap index (s.block.bitset index)) :
      Move s ((s.store index (setUnit (s.block.bitset index) (firstClear (s.block.bitset index)))).goto i
        (.sub index (firstClear (s.block.bitset index))))
  /-- The counter goes down and the address is returned. -/
  | grant {i : ι} {index bit : ℕ} (hpc : s.pc i = .sub index bit) :
      Move s ({ s.count decr32 with
        live := ⟨s.block.address (64 * index + bit), index, bit⟩ :: s.live }.goto i .idle)
  /-- A live address is passed to `kiss_free`. -/
  | giveBack {i : ι} {g : Grant} {q : Pc} (hpc : s.pc i = .idle) (hg : g ∈ s.live)
      (hq : q = .aborted ∨ q = .freeLoad g g.word g.bit) :
      Move s ({ s with live := s.live.erase g }.goto i q)
  /-- A compare-and-swap clears the bit of the grant. -/
  | clear {i : ι} {g : Grant} (hpc : s.pc i = .freeSwap g g.word g.bit (s.block.bitset g.word)) :
      Move s ((s.store g.word (clearUnit (s.block.bitset g.word) g.bit)).goto i .freeAdd)
  /-- The counter goes up. -/
  | add {i : ι} (hpc : s.pc i = .freeAdd) : Move s ((s.count incr32).goto i .idle)

/-- Neither a bit that is set nor one that is cleared is yet to be counted. -/
abbrev Pc.Settled (p : Pc) : Prop := ¬ p.OwesSub ∧ ¬ p.OwesAdd

/-- A quiet action from a known place. -/
theorem Move.quiet_from {s : KissSys ι} {i : ι} {p q : Pc} (hpc : s.pc i = p) (hp : p.Settled)
    (hq : q.Settled) (hholds : ∀ x, q.Holds x → p.Holds x) (hknows : q.Knows s.block) :
    Move s (s.goto i q) := by
  subst hpc
  exact .quiet hp hq hholds hknows

/-- The hints select a word of the block. -/
theorem Move.of_select {s s' : KissSys ι} {i : ι} {hint : ℕ} {p : Pc} (hwhole : s.block.WholeWords)
    (hpc : s.pc i = p) (hp : p.Settled) (h : s.select i hint = some s') : Move s s' := by
  unfold KissSys.select at h
  split at h
  case isTrue hhint =>
    cases h
    exact .quiet_from hpc hp ⟨not_false, not_false⟩ (fun _ hx => hx.elim) ⟨hwhole, hhint⟩
  case isFalse => cases h

omit [DecidableEq ι] in
/-- The unit that is granted is the one of the bit. -/
theorem KissSys.grant_count (s : KissSys ι) (update : ℕ → ℕ) (hcut : Sized s.block) {index bit : ℕ}
    (hknows : (Pc.sub index bit).Knows s.block) :
    (s.count update).grant index bit =
      { s.count update with live := ⟨s.block.address (64 * index + bit), index, bit⟩ :: s.live } := by
  obtain ⟨hoffset, hblock⟩ := hcut.offset_eq hknows.1 hknows.2.1 hknows.2.2
  unfold KissSys.grant
  simp only [hoffset]
  rw [if_neg hblock]
  rfl

/-- A step of a thread does one of the six things. -/
theorem threadStep_move {s s' : KissSys ι} {i : ι} {hint : ℕ} (hcut : Sized s.block)
    (hknows : (s.pc i).Knows s.block) (h : s.threadStep i hint = some s') : Move s s' := by
  have hno : ¬ False ∧ ¬ False := ⟨not_false, not_false⟩
  unfold KissSys.threadStep at h
  split at h
  case h_1 => cases h
  case h_2 hpc =>
    rw [hpc] at hknows
    split at h
    case isTrue =>
      cases h
      exact .quiet_from hpc hno hno (fun _ hx => hx.elim) trivial
    case isFalse => exact .of_select hknows hpc hno h
  case h_3 index hpc =>
    rw [hpc] at hknows
    split at h
    case isTrue => exact .of_select hknows.1 hpc hno h
    case isFalse =>
      cases h
      exact .quiet_from hpc hno hno (fun _ hx => hx.elim) hknows
  case h_4 index hpc =>
    rw [hpc] at hknows
    simp only [wordCount_setUnit_iff] at h
    split at h
    case isTrue hfull =>
      cases h
      exact .quiet_from hpc hno hno (fun _ hx => hx.elim) ⟨hknows.1, hknows.2, hfull⟩
    case isFalse =>
      cases h
      exact .quiet_from hpc hno hno (fun _ hx => hx.elim) trivial
  case h_5 index current hpc =>
    rw [hpc] at hknows
    split at h
    case isTrue hsame =>
      subst hsame
      cases h
      exact .take hpc
    case isFalse =>
      cases h
      exact .quiet_from hpc hno hno (fun _ hx => hx.elim) hknows.1
  case h_6 index bit hpc =>
    rw [hpc] at hknows
    rw [s.grant_count _ hcut hknows] at h
    cases h
    exact .grant hpc
  case h_7 g index bit hpc =>
    rw [hpc] at hknows
    simp only at h
    split at h
    case isTrue =>
      cases h
      exact .quiet_from hpc hno hno (fun _ hx => hx.elim) trivial
    case isFalse =>
      cases h
      exact .quiet_from hpc hno hno (fun _ hx => hx) hknows
  case h_8 g index bit current hpc =>
    rw [hpc] at hknows
    obtain ⟨hgranted, rfl, rfl⟩ := hknows
    split at h
    case isTrue hsame =>
      subst hsame
      cases h
      exact .clear hpc
    case isFalse =>
      cases h
      exact .quiet_from hpc hno hno (fun _ hx => hx) ⟨hgranted, rfl, rfl⟩
  case h_9 hpc =>
    cases h
    exact .add hpc
  case h_10 => cases h

/-- An action does one of the six things. -/
theorem kissStep_move {s s' : KissSys ι} {a : KissAction ι} (hcut : Sized s.block)
    (hknows : ∀ i, (s.pc i).Knows s.block) (hlive : ∀ g ∈ s.live, Granted s.block g)
    (h : kissStep s a = some s') : Move s s' := by
  have hno : ¬ False ∧ ¬ False := ⟨not_false, not_false⟩
  unfold kissStep at h
  cases a with
  | malloc i size =>
    simp only at h
    split at h
    case isTrue hpc =>
      split at h
      case isTrue hasserts =>
        cases h
        exact .quiet_from hpc hno hno (fun _ hx => hx.elim) hasserts.2
      case isFalse =>
        cases h
        exact .quiet_from hpc hno hno (fun _ hx => hx.elim) trivial
    case isFalse => cases h
  | free i g =>
    simp only at h
    split at h
    case isTrue hcall =>
      have hgranted := hlive g hcall.2
      split at h
      case isTrue hnull =>
        -- the block is not at address zero, so no unit is
        have hbase := hcut.baseAddr
        rw [hgranted.address, AllocBlock.address] at hnull
        omega
      case isFalse =>
        split at h
        case h_1 index bit hloc =>
          rw [hgranted.address] at hloc
          obtain ⟨rfl, rfl⟩ := hcut.locate_address hgranted.whole hgranted.word hgranted.bit hloc
          cases h
          exact .giveBack hcall.1 hcall.2 (.inr rfl)
        case h_2 =>
          cases h
          exact .giveBack hcall.1 hcall.2 (.inl rfl)
    case isFalse => cases h
  | step i hint => exact threadStep_move hcut (hknows i) h

/-! ## The threads know what they carry -/

/-- The block is cut as at the start, and what the threads carry and the grants record is right. -/
structure Informed (s : KissSys ι) : Prop where
  cut : Sized s.block
  knows : ∀ i, (s.pc i).Knows s.block
  granted : ∀ g ∈ s.live, Granted s.block g

/-- Neither the bitset nor the counter is part of what a grant records. -/
theorem Granted.update {ab : AllocBlock} {g : Grant} (h : Granted ab g) (bitset : ℕ → BitVec 64)
    (n : ℕ) : Granted { ab with bitset := bitset, freeBlocks := n } g :=
  ⟨h.whole, h.word, h.bit, h.address⟩

/-- Neither the bitset nor the counter is part of what a thread knows. -/
theorem Pc.Knows.update {ab : AllocBlock} {p : Pc} (h : p.Knows ab) (bitset : ℕ → BitVec 64) (n : ℕ) :
    p.Knows { ab with bitset := bitset, freeBlocks := n } := by
  cases p with
  | freeLoad g index bit => exact ⟨h.1.update bitset n, h.2⟩
  | freeSwap g index bit current => exact ⟨h.1.update bitset n, h.2⟩
  | _ => exact h

theorem Informed.goto {s : KissSys ι} (h : Informed s) (i : ι) {q : Pc} (hq : q.Knows s.block) :
    Informed (s.goto i q) where
  cut := h.cut
  knows := (Function.forall_update_iff s.pc fun _ p => p.Knows s.block).mpr ⟨hq, fun j _ => h.knows j⟩
  granted := h.granted

omit [DecidableEq ι] in
theorem Informed.store {s : KissSys ι} (h : Informed s) (index : ℕ) (word : BitVec 64) :
    Informed (s.store index word) where
  cut := ⟨⟨h.cut.baseAddr, h.cut.length, h.cut.bitsetLength⟩, h.cut.unitSize⟩
  knows := fun i => (h.knows i).update _ _
  granted := fun g hg => (h.granted g hg).update _ _

omit [DecidableEq ι] in
theorem Granted.count {s : KissSys ι} {g : Grant} (h : Granted s.block g) (update : ℕ → ℕ) :
    Granted (s.count update).block g :=
  h.update _ _

omit [DecidableEq ι] in
theorem Informed.count {s : KissSys ι} (h : Informed s) (update : ℕ → ℕ) :
    Informed (s.count update) where
  cut := ⟨⟨h.cut.baseAddr, h.cut.length, h.cut.bitsetLength⟩, h.cut.unitSize⟩
  knows := fun i => (h.knows i).update _ _
  granted := fun g hg => (h.granted g hg).count update

omit [DecidableEq ι] in
theorem Informed.setLive {s : KissSys ι} (h : Informed s) {live : List Grant}
    (hlive : ∀ g ∈ live, Granted s.block g) : Informed { s with live := live } where
  cut := h.cut
  knows := h.knows
  granted := hlive

theorem Informed.move {s s' : KissSys ι} (h : Informed s) (hmove : Move s s') : Informed s' := by
  cases hmove with
  | @quiet i q _ _ _ hknows => exact h.goto i hknows
  | @take i index hpc =>
    have hknows := h.knows i
    rw [hpc] at hknows
    have hbit := (firstClear_clear hknows.2.2).1
    have hsub : (Pc.sub index (firstClear (s.block.bitset index))).Knows s.block :=
      ⟨hknows.1, hknows.2.1, hbit⟩
    exact (h.store index _).goto i (hsub.update _ _)
  | @grant i index bit hpc =>
    have hknows := h.knows i
    rw [hpc] at hknows
    have hnew : Granted s.block ⟨s.block.address (64 * index + bit), index, bit⟩ :=
      ⟨hknows.1, hknows.2.1, hknows.2.2, rfl⟩
    have hcount := h.count decr32
    have hall : ∀ g ∈ ⟨s.block.address (64 * index + bit), index, bit⟩ :: s.live,
        Granted (s.count decr32).block g :=
      List.forall_mem_cons.mpr ⟨hnew.count decr32, fun g hg => (h.granted g hg).count decr32⟩
    exact (hcount.setLive hall).goto i trivial
  | @giveBack i g q _ hg hq =>
    have hknows : q.Knows s.block := by
      rcases hq with rfl | rfl
      · exact trivial
      · exact ⟨h.granted g hg, rfl, rfl⟩
    exact (h.setLive fun g' hg' => h.granted g' (List.mem_of_mem_erase hg')).goto i hknows
  | @clear i g _ => exact (h.store g.word _).goto i trivial
  | @add i _ => exact (h.count incr32).goto i trivial

/-! ## One owner for each bit -/

/-- Every bit that is set on behalf of a call or a live address has one owner. -/
structure Owned (s : KissSys ι) : Prop where
  held : ∀ i x, (s.pc i).Holds x → unitBit s.block.bitset x = true
  liveSet : ∀ g ∈ s.live, unitBit s.block.bitset g.unit = true
  oneHolder : Exclusive fun i x => (s.pc i).Holds x
  liveUnits : (s.live.map Grant.unit).Nodup
  apart : ∀ i, ∀ g ∈ s.live, ¬ (s.pc i).Holds g.unit

theorem holds_goto {s : KissSys ι} {i j : ι} {q : Pc} {x : ℕ} (h : ((s.goto i q).pc j).Holds x) :
    (j = i ∧ q.Holds x) ∨ (j ≠ i ∧ (s.pc j).Holds x) := by
  change (Function.update s.pc i q j).Holds x at h
  by_cases hj : j = i
  · subst hj
    rw [Function.update_self] at h
    exact .inl ⟨rfl, h⟩
  · rw [Function.update_of_ne hj] at h
    exact .inr ⟨hj, h⟩

/-- A thread that goes on holds no more than before; the bits that are needed stay set. -/
theorem Owned.drop {s : KissSys ι} (h : Owned s) {i : ι} {q : Pc} {ab : AllocBlock}
    (hholds : ∀ x, q.Holds x → (s.pc i).Holds x)
    (hheld : ∀ j x, (j = i → q.Holds x) → (s.pc j).Holds x → unitBit ab.bitset x = true)
    (hlive : ∀ g ∈ s.live, unitBit ab.bitset g.unit = true) :
    Owned (KissSys.goto ⟨ab, s.pc, s.live⟩ i q) := by
  have hold : ∀ {j x}, ((KissSys.goto ⟨ab, s.pc, s.live⟩ i q).pc j).Holds x → (s.pc j).Holds x := by
    intro j x hx
    rcases holds_goto hx with ⟨rfl, hq⟩ | ⟨-, hx⟩
    · exact hholds x hq
    · exact hx
  constructor
  case held =>
    intro j x hx
    refine hheld j x (fun hj => ?_) (hold hx)
    rcases holds_goto hx with ⟨-, hq⟩ | ⟨hne, -⟩
    · exact hq
    · exact absurd hj hne
  case liveSet => exact hlive
  case oneHolder => exact h.oneHolder.drop fun j x hx => hold hx
  case liveUnits => exact h.liveUnits
  case apart => exact fun j g hg hx => h.apart j g hg (hold hx)

/-- The counter is nobody's. -/
theorem Owned.count {s : KissSys ι} (h : Owned s) (update : ℕ → ℕ) {i : ι} :
    Owned ((s.count update).goto i .idle) :=
  h.drop (fun _ hx => hx.elim) (fun j x _ hx => h.held j x hx) h.liveSet

/-- A compare-and-swap sets a bit that was clear, so nobody had the unit. -/
theorem Owned.take {s : KissSys ι} (h : Owned s) {i : ι} {index : ℕ}
    (hword : s.block.bitset index ≠ BitVec.allOnes 64) :
    Owned ((s.store index (setUnit (s.block.bitset index) (firstClear (s.block.bitset index)))).goto i
      (.sub index (firstClear (s.block.bitset index)))) := by
  obtain ⟨hbit, hclear⟩ := firstClear_clear hword
  set bit := firstClear (s.block.bitset index) with hbitdef
  have hfree : unitBit s.block.bitset (64 * index + bit) ≠ true := by
    rw [unitBit_index _ _ hbit, hclear]
    exact Bool.false_ne_true
  have hstay : ∀ x, unitBit s.block.bitset x = true →
      unitBit (Function.update s.block.bitset index (setUnit (s.block.bitset index) bit)) x = true := by
    intro x hx
    rw [unitBit_setUnit _ _ hbit, hx, Bool.true_or]
  constructor
  case held =>
    intro j x hx
    rcases holds_goto hx with ⟨-, rfl⟩ | ⟨-, hx⟩
    · show unitBit (Function.update s.block.bitset index (setUnit (s.block.bitset index) bit)) _ = true
      rw [unitBit_setUnit _ _ hbit, decide_eq_true rfl, Bool.or_true]
    · exact hstay x (h.held j x hx)
  case liveSet => exact fun g hg => hstay g.unit (h.liveSet g hg)
  case oneHolder =>
    refine h.oneHolder.bring (b := i) (x := 64 * index + bit) (fun j hx => hfree (h.held j _ hx)) ?_
    intro j x hx
    rcases holds_goto hx with ⟨rfl, hq⟩ | ⟨-, hx⟩
    · exact .inl ⟨rfl, hq⟩
    · exact .inr hx
  case liveUnits => exact h.liveUnits
  case apart =>
    intro j g hg hx
    rcases holds_goto hx with ⟨-, hq⟩ | ⟨-, hx⟩
    · exact hfree (hq ▸ h.liveSet g hg)
    · exact h.apart j g hg hx

/-- The unit passes from the call to the live addresses. -/
theorem Owned.grant {s : KissSys ι} (h : Owned s) (update : ℕ → ℕ) {i : ι} {g : Grant}
    (hpc : (s.pc i).Holds g.unit) :
    Owned (KissSys.goto { s.count update with live := g :: s.live } i .idle) := by
  have hold : ∀ {j x},
      ((KissSys.goto { s.count update with live := g :: s.live } i .idle).pc j).Holds x →
      j ≠ i ∧ (s.pc j).Holds x := by
    intro j x hx
    rcases holds_goto hx with ⟨-, hidle⟩ | hx
    · exact hidle.elim
    · exact hx
  constructor
  case held => exact fun j x hx => h.held j x (hold hx).2
  case liveSet => exact List.forall_mem_cons.mpr ⟨h.held i _ hpc, h.liveSet⟩
  case oneHolder => exact h.oneHolder.drop fun j x hx => (hold hx).2
  case liveUnits =>
    show (g.unit :: s.live.map Grant.unit).Nodup
    refine List.nodup_cons.mpr ⟨fun hmem => ?_, h.liveUnits⟩
    obtain ⟨g', hg', hunit⟩ := List.mem_map.mp hmem
    exact h.apart i g' hg' (hunit ▸ hpc)
  case apart =>
    intro j g' hg' hx
    rcases List.mem_cons.mp hg' with rfl | hg'
    · exact (hold hx).1 (h.oneHolder (hold hx).2 hpc)
    · exact h.apart j g' hg' (hold hx).2

/-- The unit passes from the live addresses to the call. -/
theorem Owned.giveBack {s : KissSys ι} (h : Owned s) {i : ι} {g : Grant} {q : Pc} (hg : g ∈ s.live)
    (hq : ∀ x, q.Holds x → x = g.unit) :
    Owned (KissSys.goto { s with live := s.live.erase g } i q) := by
  have hnodup : s.live.Nodup := h.liveUnits.of_map _
  have hother : ∀ g' ∈ s.live.erase g, g'.unit ≠ g.unit := by
    intro g' hg' hunit
    obtain ⟨hne, hmem⟩ := hnodup.mem_erase_iff.mp hg'
    exact hne (List.inj_on_of_nodup_map h.liveUnits hmem hg hunit)
  constructor
  case held =>
    intro j x hx
    rcases holds_goto hx with ⟨-, hx⟩ | ⟨-, hx⟩
    · rw [hq x hx]
      exact h.liveSet g hg
    · exact h.held j x hx
  case liveSet => exact fun g' hg' => h.liveSet g' (List.mem_of_mem_erase hg')
  case oneHolder =>
    refine h.oneHolder.bring (b := i) (fun j hx => h.apart j g hg hx) ?_
    intro j x hx
    rcases holds_goto hx with ⟨rfl, hown⟩ | ⟨-, hx⟩
    · exact .inl ⟨rfl, hq x hown⟩
    · exact .inr hx
  case liveUnits => exact h.liveUnits.sublist (List.erase_sublist.map _)
  case apart =>
    intro j g' hg' hx
    rcases holds_goto hx with ⟨-, hx⟩ | ⟨-, hx⟩
    · exact hother g' hg' (hq _ hx)
    · exact h.apart j g' (List.mem_of_mem_erase hg') hx

theorem Owned.move {s s' : KissSys ι} (hinf : Informed s) (h : Owned s) (hmove : Move s s') :
    Owned s' := by
  cases hmove with
  | @quiet i q _ _ hholds _ => exact h.drop hholds (fun j x _ hx => h.held j x hx) h.liveSet
  | @take i index hpc =>
    have hknows := hinf.knows i
    rw [hpc] at hknows
    exact h.take hknows.2.2
  | @grant i index bit hpc =>
    have hholds : (s.pc i).Holds (Grant.unit ⟨s.block.address (64 * index + bit), index, bit⟩) := by
      rw [hpc]
      rfl
    exact h.grant decr32 hholds
  | @giveBack i g q _ hg hq =>
    refine h.giveBack hg fun x hx => ?_
    rcases hq with rfl | rfl
    · exact hx.elim
    · exact hx
  | @clear i g hpc =>
    have hknows := hinf.knows i
    rw [hpc] at hknows
    have hholds : (s.pc i).Holds g.unit := by
      rw [hpc]
      rfl
    -- the unit is the thread's own, so the bits of all others stay
    have hstay : ∀ x, x ≠ 64 * g.word + g.bit → unitBit s.block.bitset x = true →
        unitBit (Function.update
        s.block.bitset g.word (clearUnit (s.block.bitset g.word) g.bit)) x = true := by
      intro x hne hx
      rw [unitBit_clearUnit _ _ hknows.1.bit, hx]
      rw [Bool.true_and, decide_eq_false hne, Bool.not_false]
    refine h.drop (fun x hx => hx.elim) (fun j x hj hx => ?_) fun g' hg' => ?_
    · refine hstay x (fun hunit => ?_) (h.held j x hx)
      subst hunit
      exact hj (h.oneHolder hx hholds)
    · refine hstay g'.unit (fun hunit => ?_) (h.liveSet g' hg')
      exact h.apart i g' hg' (hunit ▸ hholds)
  | @add i _ => exact h.count incr32

/-! ## The counter -/

/-- The counter and the bitset make up the units of the block, but for the calls that have swapped and
not yet counted; the counter may have wrapped meanwhile. -/
structure Balanced (s : KissSys ι) : Prop where
  freeBlocks : s.block.freeBlocks < 2 ^ 32
  room : popcount s.block.bitset s.block.bitsetLength ≤ s.block.length / s.block.unitSize
  balance : ∃ subs adds, Census Pc.OwesSub s.pc subs ∧ Census Pc.OwesAdd s.pc adds ∧
    (popcount s.block.bitset s.block.bitsetLength + s.block.freeBlocks + adds) % 2 ^ 32 =
      (s.block.length / s.block.unitSize + subs) % 2 ^ 32

omit [DecidableEq ι] in
/-- When nobody has anything left to count, the sum is exact. -/
theorem Balanced.sum {s : KissSys ι} (h : Balanced s) (hcut : Sized s.block)
    (hidle : ∀ i, s.pc i = .idle) :
    popcount s.block.bitset s.block.bitsetLength + s.block.freeBlocks =
      s.block.length / s.block.unitSize := by
  obtain ⟨subs, adds, hsubs, hadds, hbalance⟩ := h.balance
  have hnone : ∀ {P : Pc → Prop} {n : ℕ}, ¬ P .idle → Census P s.pc n → n = 0 := by
    rintro P n hP ⟨t, ht, rfl⟩
    refine Finset.card_eq_zero.mpr (Finset.eq_empty_iff_forall_notMem.mpr fun i hi => hP ?_)
    rw [← hidle i]
    exact (ht i).mp hi
  have hsubs0 := hnone not_false hsubs
  have hadds0 := hnone not_false hadds
  have hunits : s.block.length / s.block.unitSize < 2 ^ 32 :=
    lt_of_le_of_lt (Nat.div_le_self _ _) hcut.length
  have hfree := h.freeBlocks
  have hroom := h.room
  omega

/-- A word of the block has its 64 units among those of the block. -/
theorem Sized.units_eq {ab : AllocBlock} (h : Sized ab) (hwhole : ab.WholeWords) {index : ℕ}
    (hindex : index < ab.bitsetLength) : ab.length / ab.unitSize = 64 * ab.bitsetLength := by
  obtain ⟨hlen, -, hpos⟩ := h.length_eq hwhole hindex
  rw [hlen, show 64 * ab.unitSize * ab.bitsetLength = 64 * ab.bitsetLength * ab.unitSize by ring,
    Nat.mul_div_cancel _ hpos]

/-- The sum that `verify_blockcount` checks modulo 2^32 is exact. -/
theorem Laid.sum_eq {ab : AllocBlock} (h : Laid ab) (hunit : 64 * ab.unitSize < 2 ^ 64)
    (hwhole : ab.WholeWords) :
    popcount ab.bitset ab.bitsetLength + ab.freeBlocks = ab.length / ab.unitSize := by
  have hle : popcount ab.bitset ab.bitsetLength ≤ ab.length / ab.unitSize := by
    rcases Nat.eq_zero_or_pos ab.bitsetLength with hzero | hpos
    · rw [hzero]
      exact (popcount_le ab.bitset 0).trans (Nat.zero_le _)
    · rw [Sized.units_eq ⟨h.toCut, hunit⟩ hwhole hpos]
      exact popcount_le _ _
  have hfree := h.freeBlocks
  have hsum := h.sum
  omega

/-- The balance after a step, from the census of the threads and the change of bitset and counter. -/
theorem Balanced.next {s : KissSys ι} (h : Balanced s) {i : ι} {q : Pc} {bitset : ℕ → BitVec 64} {n : ℕ}
    {live : List Grant} (hn : n < 2 ^ 32)
    (hroom : popcount bitset s.block.bitsetLength ≤ s.block.length / s.block.unitSize)
    (hnext : ∀ {subs adds}, Census Pc.OwesSub s.pc subs → Census Pc.OwesAdd s.pc adds →
      (popcount s.block.bitset s.block.bitsetLength + s.block.freeBlocks + adds) % 2 ^ 32 =
        (s.block.length / s.block.unitSize + subs) % 2 ^ 32 →
      ∃ subs' adds', Census Pc.OwesSub (Function.update s.pc i q) subs' ∧
        Census Pc.OwesAdd (Function.update s.pc i q) adds' ∧
        (popcount bitset s.block.bitsetLength + n + adds') % 2 ^ 32 =
          (s.block.length / s.block.unitSize + subs') % 2 ^ 32) :
    Balanced (KissSys.goto ⟨{ s.block with bitset := bitset, freeBlocks := n }, s.pc, live⟩ i q) := by
  obtain ⟨subs, adds, hsubs, hadds, hbalance⟩ := h.balance
  exact ⟨hn, hroom, hnext hsubs hadds hbalance⟩

/-- Nothing is counted and nothing is left to count. -/
theorem Balanced.settled {s : KissSys ι} (h : Balanced s) {i : ι} {q : Pc} {live : List Grant}
    (hfrom : (s.pc i).Settled) (hto : q.Settled) :
    Balanced (KissSys.goto ⟨s.block, s.pc, live⟩ i q) :=
  h.next h.freeBlocks h.room fun hsubs hadds hbalance =>
    ⟨_, _, hsubs.stay (iff_of_false hto.1 hfrom.1), hadds.stay (iff_of_false hto.2 hfrom.2), hbalance⟩

/-- A bit is set, and is to be taken off the counter. -/
theorem Balanced.take {s : KissSys ι} (hinf : Informed s) (h : Balanced s) {i : ι} {index : ℕ}
    (hpc : s.pc i = .swap index (s.block.bitset index)) :
    Balanced ((s.store index (setUnit (s.block.bitset index) (firstClear (s.block.bitset index)))).goto i
      (.sub index (firstClear (s.block.bitset index)))) := by
  have hknows := hinf.knows i
  rw [hpc] at hknows
  obtain ⟨hwhole, hindex, hword⟩ := hknows
  obtain ⟨hbit, hclear⟩ := firstClear_clear hword
  have hmore := popcount_setUnit index hbit hindex hclear
  have hunits := hinf.cut.units_eq hwhole hindex
  refine h.next h.freeBlocks ?_ fun hsubs hadds hbalance =>
    ⟨_, _, hsubs.enter ?_ trivial, hadds.stay ?_, ?_⟩
  · rw [hunits]
    exact popcount_le _ _
  · rw [hpc]
    exact not_false
  · rw [hpc]
    exact Iff.rfl
  · rw [hmore]
    omega

/-- The counter goes down. -/
theorem Balanced.sub {s : KissSys ι} (h : Balanced s) {i : ι} {index bit : ℕ} {live : List Grant}
    (hpc : s.pc i = .sub index bit) {update : ℕ → ℕ} (hupdate : update = decr32) :
    Balanced (KissSys.goto { s.count update with live := live } i .idle) := by
  have hn : update s.block.freeBlocks = (s.block.freeBlocks + (2 ^ 32 - 1)) % 2 ^ 32 := by
    rw [hupdate, decr32]
  have howes : (s.pc i).OwesSub := by
    rw [hpc]
    exact trivial
  refine h.next (by omega) h.room fun {subs adds} hsubs hadds hbalance => ?_
  obtain ⟨subs, rfl⟩ := Nat.exists_eq_add_one.mpr (hsubs.pos howes)
  refine ⟨subs, adds, hsubs.leave howes not_false, hadds.stay ?_, ?_⟩
  · rw [hpc]
    exact Iff.rfl
  · omega

/-- A bit is cleared, and is to be added to the counter. -/
theorem Balanced.clear {s : KissSys ι} (hinf : Informed s) (hown : Owned s) (h : Balanced s) {i : ι}
    {g : Grant} (hpc : s.pc i = .freeSwap g g.word g.bit (s.block.bitset g.word)) :
    Balanced ((s.store g.word (clearUnit (s.block.bitset g.word) g.bit)).goto i .freeAdd) := by
  have hknows := hinf.knows i
  rw [hpc] at hknows
  have hgranted := hknows.1
  have hset : (s.block.bitset g.word).getLsbD g.bit = true := by
    rw [← unitBit_index _ _ hgranted.bit]
    apply hown.held i
    rw [hpc]
    rfl
  have hless := popcount_clearUnit g.word hgranted.bit hgranted.word hset
  have hroom := h.room
  refine h.next h.freeBlocks (by omega) fun hsubs hadds hbalance =>
    ⟨_, _, hsubs.stay ?_, hadds.enter ?_ trivial, ?_⟩
  · rw [hpc]
    exact Iff.rfl
  · rw [hpc]
    exact not_false
  · omega

/-- The counter goes up. -/
theorem Balanced.add {s : KissSys ι} (h : Balanced s) {i : ι} (hpc : s.pc i = .freeAdd)
    {update : ℕ → ℕ} (hupdate : update = incr32) : Balanced ((s.count update).goto i .idle) := by
  have hn : update s.block.freeBlocks = (s.block.freeBlocks + 1) % 2 ^ 32 := by
    rw [hupdate, incr32]
  have howes : (s.pc i).OwesAdd := by
    rw [hpc]
    exact trivial
  refine h.next (by omega) h.room fun {subs adds} hsubs hadds hbalance => ?_
  obtain ⟨adds, rfl⟩ := Nat.exists_eq_add_one.mpr (hadds.pos howes)
  refine ⟨subs, adds, hsubs.stay ?_, hadds.leave howes not_false, ?_⟩
  · rw [hpc]
    exact Iff.rfl
  · omega

theorem Balanced.move {s s' : KissSys ι} (hinf : Informed s) (hown : Owned s) (h : Balanced s)
    (hmove : Move s s') : Balanced s' := by
  cases hmove with
  | quiet hfrom hto _ _ => exact h.settled hfrom hto
  | take hpc => exact h.take hinf hpc
  | grant hpc => exact h.sub hpc rfl
  | @giveBack i g q hpc _ hq =>
    have hfrom : (s.pc i).Settled := by
      rw [hpc]
      exact ⟨not_false, not_false⟩
    have hto : q.Settled := by
      rcases hq with rfl | rfl
      · exact ⟨not_false, not_false⟩
      · exact ⟨not_false, not_false⟩
    exact h.settled hfrom hto
  | clear hpc => exact h.clear hinf hown hpc
  | add hpc => exact h.add hpc rfl

/-! ## Every unit is handed out once -/

/-- The units of a block: how many there are and where they begin. -/
def AllocBlock.shape (ab : AllocBlock) : ℕ × ℕ × ℕ := (ab.baseAddr, ab.length, ab.unitSize)

theorem AllocBlock.eq_of_shape {ab ab' : AllocBlock} (h : ab.shape = ab'.shape) :
    ab.baseAddr = ab'.baseAddr ∧ ab.length = ab'.length ∧ ab.unitSize = ab'.unitSize :=
  ⟨congrArg (·.1) h, congrArg (·.2.1) h, congrArg (·.2.2) h⟩

omit [DecidableEq ι] in
@[simp] theorem KissSys.shape_count (s : KissSys ι) (update : ℕ → ℕ) :
    (s.count update).block.shape = s.block.shape := rfl

/-- The units of the block stay what they are. -/
theorem Move.shape {s s' : KissSys ι} (hmove : Move s s') : s'.block.shape = s.block.shape := by
  cases hmove with
  | quiet => rfl
  | take => rfl
  | grant => exact s.shape_count decr32
  | giveBack => rfl
  | clear => rfl
  | add => exact s.shape_count incr32

/-- No call has begun. -/
structure KissSys.Init (s : KissSys ι) : Prop where
  laid : Laid s.block
  idle : ∀ i, s.pc i = .idle
  live : s.live = []

/-- The invariant of the calls on a block that had `shape` at the start. -/
structure KissInv (shape : ℕ × ℕ × ℕ) (s : KissSys ι) : Prop where
  shape : s.block.shape = shape
  informed : Informed s
  owned : Owned s
  balanced : Balanced s

theorem KissInv.move {shape : ℕ × ℕ × ℕ} {s s' : KissSys ι} (h : KissInv shape s) (hmove : Move s s') :
    KissInv shape s' where
  shape := hmove.shape.trans h.shape
  informed := h.informed.move hmove
  owned := h.owned.move h.informed hmove
  balanced := h.balanced.move h.informed h.owned hmove

omit [DecidableEq ι] in
theorem KissSys.Init.inv {s : KissSys ι} (h : s.Init) (hunit : 64 * s.block.unitSize < 2 ^ 64)
    (hwhole : s.block.WholeWords) : KissInv s.block.shape s := by
  have hsum := h.laid.sum_eq hunit hwhole
  have hunits : s.block.length / s.block.unitSize < 2 ^ 32 :=
    lt_of_le_of_lt (Nat.div_le_self _ _) h.laid.length
  have hnone : ∀ {P : Pc → Prop}, ¬ P .idle → Census P s.pc 0 := fun hP =>
    Census.zero fun i => by
      rw [h.idle i]
      exact hP
  constructor
  case shape => rfl
  case informed =>
    refine ⟨⟨h.laid.toCut, hunit⟩, fun i => ?_, fun g hg => ?_⟩
    · rw [h.idle i]
      exact trivial
    · rw [h.live] at hg
      exact absurd hg List.not_mem_nil
  case owned =>
    have hhold : ∀ i x, ¬ (s.pc i).Holds x := fun i x hx => by
      rw [h.idle i] at hx
      exact hx
    refine ⟨fun i x hx => absurd hx (hhold i x), fun g hg => ?_,
      fun i _ x hx => absurd hx (hhold i x), ?_,
      fun i g _ => hhold i g.unit⟩
    · rw [h.live] at hg
      exact absurd hg List.not_mem_nil
    · rw [h.live]
      exact List.nodup_nil
  case balanced => exact ⟨by omega, by omega, 0, 0, hnone not_false, hnone not_false, by rw [hsum]⟩

/-- The states of the runs from `s₀` keep the invariant. -/
theorem kissInv_of_runs {s₀ s : KissSys ι} (h₀ : s₀.Init)
    (hunit : 64 * s₀.block.unitSize < 2 ^ 64) (hwhole : s₀.block.WholeWords)
    (hs : Runs (· = s₀) kissStep (fun _ _ => True) s) : KissInv s₀.block.shape s := by
  apply hs.invariant
  · rintro s rfl
    exact h₀.inv hunit hwhole
  · intro s a s' h _ hstep
    exact h.move (kissStep_move h.informed.cut h.informed.knows h.informed.granted hstep)

/-- A swap of `kiss_free` that succeeds clears the bit of the grant. -/
theorem KissInv.clears {shape : ℕ × ℕ × ℕ} {s s' : KissSys ι} (h : KissInv shape s) {i : ι} {g : Grant}
    {index bit hint : ℕ} {current : BitVec 64} (hpc : s.pc i = .freeSwap g index bit current)
    (hstep : kissStep s (.step i hint) = some s') (hdone : s'.pc i = .freeAdd) :
    unitBit s.block.bitset g.unit = true ∧
      ∀ x, unitBit s'.block.bitset x = (unitBit s.block.bitset x && !decide (x = g.unit)) := by
  have hknows := h.informed.knows i
  rw [hpc] at hknows
  obtain ⟨hgranted, rfl, rfl⟩ := hknows
  have hset : unitBit s.block.bitset g.unit = true := by
    apply h.owned.held i
    rw [hpc]
    rfl
  simp only [kissStep, KissSys.threadStep, hpc] at hstep
  split at hstep
  case isTrue hsame =>
    subst hsame
    cases hstep
    exact ⟨hset, unitBit_clearUnit s.block.bitset g.word hgranted.bit⟩
  case isFalse =>
    -- the swap was lost, and the thread loads the word again
    cases hstep
    change Function.update s.pc i _ i = _ at hdone
    rw [Function.update_self] at hdone
    cases hdone

/-- The bit of unit `x` is set, and on behalf of nobody. -/
structure Untouched (x : ℕ) (s : KissSys ι) : Prop where
  set : unitBit s.block.bitset x = true
  held : ∀ i, ¬ (s.pc i).Holds x
  live : ∀ g ∈ s.live, g.unit ≠ x

/-- Nobody comes to hold `x`. -/
theorem Untouched.goto {x : ℕ} {s : KissSys ι} (h : Untouched x s) {i : ι} {q : Pc} {ab : AllocBlock}
    {live : List Grant} (hset : unitBit ab.bitset x = true) (hq : ¬ q.Holds x)
    (hlive : ∀ g ∈ live, g.unit ≠ x) : Untouched x (KissSys.goto ⟨ab, s.pc, live⟩ i q) := by
  refine ⟨hset, fun j hx => ?_, hlive⟩
  rcases holds_goto hx with ⟨-, hx⟩ | ⟨-, hx⟩
  · exact hq hx
  · exact h.held j hx

theorem Untouched.count {x : ℕ} {s : KissSys ι} (h : Untouched x s) (update : ℕ → ℕ) {i : ι}
    {live : List Grant} (hlive : ∀ g ∈ live, g.unit ≠ x) :
    Untouched x (KissSys.goto { s.count update with live := live } i .idle) :=
  h.goto h.set not_false hlive

theorem Untouched.move {x : ℕ} {s s' : KissSys ι} (hinf : Informed s) (h : Untouched x s)
    (hmove : Move s s') : Untouched x s' := by
  cases hmove with
  | @quiet i q _ _ hholds _ => exact h.goto h.set (fun hx => h.held i (hholds x hx)) h.live
  | @take i index hpc =>
    have hknows := hinf.knows i
    rw [hpc] at hknows
    obtain ⟨hbit, hclear⟩ := firstClear_clear hknows.2.2
    refine h.goto ?_ (fun hx => ?_) h.live
    · show unitBit (Function.update _ _ _) x = true
      rw [unitBit_setUnit _ _ hbit, h.set, Bool.true_or]
    · -- the unit that is taken was free
      have hset := h.set
      rw [show x = 64 * index + firstClear (s.block.bitset index) from hx, unitBit_index _ _ hbit,
        hclear] at hset
      cases hset
  | @grant i index bit hpc =>
    refine h.count decr32 (List.forall_mem_cons.mpr ⟨fun hx => h.held i ?_, h.live⟩)
    rw [hpc]
    exact hx.symm
  | @giveBack i g q _ hg hq =>
    refine h.goto h.set (fun hx => ?_) fun g' hg' => h.live g' (List.mem_of_mem_erase hg')
    rcases hq with rfl | rfl
    · exact hx
    · exact h.live g hg hx.symm
  | @clear i g hpc =>
    have hknows := hinf.knows i
    rw [hpc] at hknows
    have hne : x ≠ 64 * g.word + g.bit := fun hx => h.held i (by rw [hpc]; exact hx)
    refine h.goto ?_ not_false h.live
    show unitBit (Function.update _ _ _) x = true
    rw [unitBit_clearUnit _ _ hknows.1.bit, h.set, decide_eq_false hne]
    rfl
  | @add i _ => exact h.count incr32 h.live

/-- A unit that is marked at the start is never handed out. -/
theorem untouched_of_runs {s₀ s : KissSys ι} (h₀ : s₀.Init)
    (hunit : 64 * s₀.block.unitSize < 2 ^ 64) (hwhole : s₀.block.WholeWords) {x : ℕ}
    (hx : unitBit s₀.block.bitset x = true) (hs : Runs (· = s₀) kissStep (fun _ _ => True) s) :
    Untouched x s := by
  have hinv : KissInv s₀.block.shape s ∧ Untouched x s := by
    apply hs.invariant
    · rintro s rfl
      refine ⟨h₀.inv hunit hwhole, hx, fun i hi => ?_, fun g hg => ?_⟩
      · rw [h₀.idle i] at hi
        exact hi
      · rw [h₀.live] at hg
        exact absurd hg List.not_mem_nil
    · intro s a s' h _ hstep
      have hmove := kissStep_move h.1.informed.cut h.1.informed.knows h.1.informed.granted hstep
      exact ⟨h.1.move hmove, h.2.move h.1.informed hmove⟩
  exact hinv.2

end

/-! ## Two threads that race for a word -/

end NvmMalloc.Kiss
