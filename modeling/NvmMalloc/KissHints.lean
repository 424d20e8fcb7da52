import NvmMalloc.KissLayout

/-!
# The hints of the kiss allocator

Reference: `benchmark/src/kiss_alloc.c` (`get_next_index_hint`, `find_first_available`).

`find_first_available` starts at the word that the hint of its processor names, and goes to the next hint
while the word is full.  Three kinds of values pass through one variable: the processor, its hint and the
word.  `index = cpu_index_hint[index] = get_next_index_hint(..)` subscripts the 128 hints with a
word, and `get_next_index_hint` returns, when the shared hint is used up, a value beyond
`largest_index_hint`.

* `inRange_kissMalloc_iff`: a call stays in range exactly if the word of its hint has room, or if that
  word is below 128 and the next shared hint is a word with room.
* `hints_in_range`: so it is in every state of every run whose allocations meet this condition.
-/

namespace NvmMalloc.Kiss

open Interleaving

/-! ## In range -/

/-- No subscript was out of range, the assertion on the index held, and the loop ended. -/
def InRange {α : Type} : Except Stop α → Prop
  | .error (.cpuIndexHint _) => False
  | .error (.bitset _) => False
  | .error (.indexAssert _) => False
  | .error .outOfFuel => False
  | _ => True

/-- What holds of the hints of a block: the hints are words, and the shared hint is beyond all of the
first hints. -/
structure HintInv (ab : AllocBlock) : Prop where
  words : ab.bitsetLength = ab.largestIndexHint
  small : ab.largestIndexHint < 2 ^ 31
  enough : cpuIndexHints < ab.largestIndexHint
  hints : ∀ cpu < cpuIndexHints, ab.cpuIndexHint cpu < ab.largestIndexHint
  next_gt : cpuIndexHints < ab.nextIndexHint
  next_le : ab.nextIndexHint ≤ ab.largestIndexHint

/-- A word of the bitset is full. -/
def AllocBlock.Full (ab : AllocBlock) (index : ℕ) : Prop := ab.bitset index = BitVec.allOnes 64

instance (ab : AllocBlock) (index : ℕ) : Decidable (ab.Full index) := inferInstanceAs (Decidable (_ = _))

/-- There is room in the word of the hint of processor `cpu`, or in that of the next shared hint. -/
def FindsRoom (cpu : ℕ) (ab : AllocBlock) : Prop :=
  ¬ ab.Full (ab.cpuIndexHint cpu) ∨ (ab.cpuIndexHint cpu < cpuIndexHints ∧
    ab.nextIndexHint < ab.largestIndexHint ∧ ¬ ab.Full ab.nextIndexHint)

instance (cpu : ℕ) (ab : AllocBlock) : Decidable (FindsRoom cpu ab) :=
  inferInstanceAs (Decidable (_ ∨ _))

/-- The hints serve a call on processor `cpu`: it does not look for a word, or it finds room at its hint,
or at the next shared hint. -/
def HintsServe (cpu size : ℕ) (ab : AllocBlock) : Prop :=
  ab.unitSize < size ∨ ¬ ab.WholeWords ∨ ab.freeBlocks = 0 ∨ FindsRoom cpu ab

instance (cpu size : ℕ) (ab : AllocBlock) : Decidable (HintsServe cpu size ab) :=
  inferInstanceAs (Decidable (_ ∨ _))

/-! ## The shared hint -/

/-- The block after the shared hint was taken and stored at `index`. -/
def AllocBlock.nextHint (ab : AllocBlock) (index : ℕ) : AllocBlock :=
  { ab with
    nextIndexHint := ab.nextIndexHint + 1
    cpuIndexHint := Function.update ab.cpuIndexHint index ab.nextIndexHint }

/-- The common case. -/
theorem HintInv.getNextIndexHint_of_lt {ab : AllocBlock} (h : HintInv ab)
    (hlt : ab.nextIndexHint < ab.largestIndexHint) :
    getNextIndexHint ab = (ab.nextIndexHint, { ab with nextIndexHint := ab.nextIndexHint + 1 }) := by
  have hsmall := h.small
  have hmod : ab.nextIndexHint % 2 ^ 32 = ab.nextIndexHint := Nat.mod_eq_of_lt (by omega)
  have hmod' : (ab.nextIndexHint + 1) % 2 ^ 64 = ab.nextIndexHint + 1 := Nat.mod_eq_of_lt (by omega)
  unfold getNextIndexHint
  simp only [hmod, hmod']
  rw [if_pos hlt]

/-- The shared hint is used up: what is returned is not a word. -/
theorem HintInv.getNextIndexHint_of_eq {ab : AllocBlock} (h : HintInv ab)
    (heq : ab.nextIndexHint = ab.largestIndexHint) :
    ∃ ab', getNextIndexHint ab = (ab.largestIndexHint + 1, ab') ∧
      ab'.largestIndexHint = ab.largestIndexHint := by
  have hsmall := h.small
  have hmod : ab.nextIndexHint % 2 ^ 32 = ab.nextIndexHint := Nat.mod_eq_of_lt (by omega)
  have hmod' : (ab.nextIndexHint + 1) % 2 ^ 64 = ab.nextIndexHint + 1 := Nat.mod_eq_of_lt (by omega)
  have hmod'' : (ab.nextIndexHint + 1) % 2 ^ 32 = ab.nextIndexHint + 1 := Nat.mod_eq_of_lt (by omega)
  refine ⟨{ ab with nextIndexHint := 0 }, ?_, rfl⟩
  unfold getNextIndexHint
  simp only [hmod, hmod', hmod'']
  rw [if_neg (by omega), if_pos trivial, heq]

/-! ## The inner loop -/

section

variable {ab : AllocBlock} {index : ℕ}

theorem bitsetAt_of_lt (hindex : index < ab.bitsetLength) : ab.bitsetAt index = .ok (ab.bitset index) :=
  if_pos hindex

theorem mustSkip_of_word (hlargest : index ≤ ab.largestIndexHint) (hindex : index < ab.bitsetLength) :
    ab.mustSkip index = .ok (decide (ab.Full index)) := by
  unfold AllocBlock.mustSkip
  rw [if_neg (Nat.not_lt.mpr hlargest), bitsetAt_of_lt hindex]
  rfl

theorem mustSkip_of_gt (hlargest : ab.largestIndexHint < index) : ab.mustSkip index = .ok true :=
  if_pos hlargest

/-- A word with room ends the loop. -/
theorem findWord_of_not_skip (n : ℕ) (hskip : ab.mustSkip index = .ok false) :
    findWord (n + 1) index ab = .ok (index, ab) := by
  unfold findWord
  rw [hskip]
  rfl

/-- A word that is full at a subscript that is no processor. -/
theorem findWord_of_skip_ge (n : ℕ) (hskip : ab.mustSkip index = .ok true)
    (hindex : cpuIndexHints ≤ index) :
    findWord (n + 1) index ab = .error (.cpuIndexHint index) := by
  unfold findWord
  rw [hskip]
  show ((getNextIndexHint ab).2.setHint index (getNextIndexHint ab).1).bind _ = _
  rw [AllocBlock.setHint, if_neg (Nat.not_lt.mpr hindex)]
  rfl

/-- A word that is full at a subscript that is a processor. -/
theorem findWord_of_skip_lt (n : ℕ) (hskip : ab.mustSkip index = .ok true)
    (hindex : index < cpuIndexHints)
    {hint : ℕ} {ab' : AllocBlock} (hnext : getNextIndexHint ab = (hint, ab')) :
    findWord (n + 1) index ab =
      findWord n hint { ab' with cpuIndexHint := Function.update ab'.cpuIndexHint index hint } := by
  rw [findWord, hskip, hnext]
  show (ab'.setHint index hint).bind _ = _
  rw [AllocBlock.setHint, if_pos hindex]
  rfl

end

/-- The three ways the loop can end, from the hint of a processor. -/
inductive FindsWord (ab : AllocBlock) (index : ℕ) : Except Stop (ℕ × AllocBlock) → Prop where
  /-- There is room at the hint. -/
  | own (hfull : ¬ ab.Full index) : FindsWord ab index (.ok (index, ab))
  /-- There is room at the next shared hint. -/
  | shared (hfull : ab.Full index) (hcpu : index < cpuIndexHints)
      (hlt : ab.nextIndexHint < ab.largestIndexHint) (hroom : ¬ ab.Full ab.nextIndexHint) :
      FindsWord ab index (.ok (ab.nextIndexHint, ab.nextHint index))
  /-- A word is used as the subscript of a hint. -/
  | lost {j : ℕ} (hfull : ab.Full index)
      (hnone : ¬ (index < cpuIndexHints ∧ ab.nextIndexHint < ab.largestIndexHint ∧
        ¬ ab.Full ab.nextIndexHint)) :
      FindsWord ab index (.error (.cpuIndexHint j))

/-- The second round, at the next shared hint: a word beyond the processors. -/
theorem HintInv.findWord_shared {ab : AllocBlock} (h : HintInv ab) {index : ℕ} (hfull : ab.Full index)
    (hcpu : index < cpuIndexHints) (hlt : ab.nextIndexHint < ab.largestIndexHint) (n : ℕ) :
    FindsWord ab index (findWord (n + 1) ab.nextIndexHint (ab.nextHint index)) := by
  have hskip : (ab.nextHint index).mustSkip ab.nextIndexHint = .ok (decide (ab.Full ab.nextIndexHint)) :=
    mustSkip_of_word hlt.le (lt_of_lt_of_eq hlt h.words.symm)
  by_cases hnext : ab.Full ab.nextIndexHint
  · rw [decide_eq_true hnext] at hskip
    rw [findWord_of_skip_ge n hskip h.next_gt.le]
    exact .lost hfull fun hroom => hroom.2.2 hnext
  · rw [decide_eq_false hnext] at hskip
    rw [findWord_of_not_skip n hskip]
    exact .shared hfull hcpu hlt hnext

/-- The second round, after the shared hint was used up: the index is beyond all words. -/
theorem HintInv.findWord_wrapped {ab : AllocBlock} (h : HintInv ab) {index : ℕ} (hfull : ab.Full index)
    (heq : ab.nextIndexHint = ab.largestIndexHint) {ab' : AllocBlock}
    (hlargest : ab'.largestIndexHint = ab.largestIndexHint) (n : ℕ) :
    FindsWord ab index (findWord (n + 1) (ab.largestIndexHint + 1) ab') := by
  have henough := h.enough
  rw [findWord_of_skip_ge n (mustSkip_of_gt (by omega)) (by omega)]
  exact .lost hfull fun hroom => by omega

theorem HintInv.findWord {ab : AllocBlock} (h : HintInv ab) {index : ℕ}
    (hindex : index < ab.largestIndexHint) (n : ℕ) : FindsWord ab index (findWord (n + 2) index ab) := by
  have hskip := mustSkip_of_word hindex.le (lt_of_lt_of_eq hindex h.words.symm)
  by_cases hfull : ab.Full index
  · rw [decide_eq_true hfull] at hskip
    rcases Nat.lt_or_ge index cpuIndexHints with hcpu | hcpu
    · rcases Nat.lt_or_eq_of_le h.next_le with hlt | heq
      · rw [findWord_of_skip_lt _ hskip hcpu (h.getNextIndexHint_of_lt hlt)]
        exact h.findWord_shared hfull hcpu hlt n
      · obtain ⟨ab', hnext, hlargest⟩ := h.getNextIndexHint_of_eq heq
        rw [findWord_of_skip_lt _ hskip hcpu hnext]
        apply h.findWord_wrapped hfull heq
        exact hlargest
    · rw [findWord_of_skip_ge _ hskip hcpu]
      exact .lost hfull fun hroom => by omega
  · rw [decide_eq_false hfull] at hskip
    rw [findWord_of_not_skip _ hskip]
    exact .own hfull

/-! ## Calls -/

/-- Neither the bitset nor the counter has a part in the hints. -/
theorem HintInv.update {ab : AllocBlock} (h : HintInv ab) (bitset : ℕ → BitVec 64) (n : ℕ) :
    HintInv { ab with bitset := bitset, freeBlocks := n } :=
  ⟨h.words, h.small, h.enough, h.hints, h.next_gt, h.next_le⟩

/-- A shared hint is a word. -/
theorem HintInv.nextHint {ab : AllocBlock} (h : HintInv ab) (index : ℕ)
    (hlt : ab.nextIndexHint < ab.largestIndexHint) : HintInv (ab.nextHint index) where
  words := h.words
  small := h.small
  enough := h.enough
  hints := by
    intro cpu hcpu
    show Function.update ab.cpuIndexHint index ab.nextIndexHint cpu < ab.largestIndexHint
    by_cases heq : cpu = index
    · rw [heq, Function.update_self]
      exact hlt
    · rw [Function.update_of_ne heq]
      exact h.hints cpu hcpu
  next_gt := Nat.lt_succ_of_lt h.next_gt
  next_le := hlt

/-- A word with room has a unit to take. -/
theorem takeUnit_of_not_full {ab : AllocBlock} {index : ℕ} (hindex : index < ab.bitsetLength)
    (hfull : ¬ ab.Full index) :
    ab.takeUnit index = .ok ((firstClear (ab.bitset index) + index * 64) % 2 ^ 32,
      { ab with
        bitset := Function.update ab.bitset index
          (setUnit (ab.bitset index) (firstClear (ab.bitset index)))
        freeBlocks := decr32 ab.freeBlocks }) := by
  unfold AllocBlock.takeUnit
  rw [bitsetAt_of_lt hindex]
  exact if_pos ((wordCount_setUnit_iff _).mpr hfull)

theorem HintInv.takeUnit {ab : AllocBlock} (h : HintInv ab) {index : ℕ}
    (hindex : index < ab.largestIndexHint) (hfull : ¬ ab.Full index) :
    ∃ offset ab', ab.takeUnit index = .ok (offset, ab') ∧ HintInv ab' :=
  ⟨_, _, takeUnit_of_not_full (lt_of_lt_of_eq hindex h.words.symm) hfull, h.update _ _⟩

/-- A call that looks for a word stays in range if it finds room, and keeps the hints. -/
theorem HintInv.findFirstAvailable {ab : AllocBlock} (h : HintInv ab) {cpu : ℕ}
    (hcpu : cpu < cpuIndexHints) (hwhole : ab.WholeWords) (hfree : ab.freeBlocks ≠ 0) :
    (∃ offset ab', Kiss.findFirstAvailable cpu ab = .ok (offset, ab') ∧ HintInv ab' ∧ FindsRoom cpu ab) ∨
    (∃ j, Kiss.findFirstAvailable cpu ab = .error (.cpuIndexHint j)) ∧ ¬ FindsRoom cpu ab := by
  have hhint := h.hints cpu hcpu
  have hsmall := h.small
  have hmod : ab.cpuIndexHint cpu % 2 ^ 32 = ab.cpuIndexHint cpu := Nat.mod_eq_of_lt (by omega)
  have heq : Kiss.findFirstAvailable cpu ab =
      (Kiss.findWord (ab.largestIndexHint + 2) (ab.cpuIndexHint cpu) ab).bind
        fun r => r.2.takeUnit r.1 := by
    unfold Kiss.findFirstAvailable
    rw [if_neg (not_not.mpr ⟨hwhole, hcpu.le⟩), if_neg hfree, AllocBlock.hintAt, if_pos hcpu]
    show (if ab.largestIndexHint ≤ ab.cpuIndexHint cpu % 2 ^ 32 then _ else _) = _
    rw [hmod, if_neg (Nat.not_le.mpr hhint)]
    rfl
  rw [heq]
  have hfind := h.findWord hhint ab.largestIndexHint
  generalize Kiss.findWord (ab.largestIndexHint + 2) (ab.cpuIndexHint cpu) ab = r at hfind
  cases hfind with
  | own hfull =>
    obtain ⟨offset, ab', htake, hinv⟩ := h.takeUnit hhint hfull
    exact .inl ⟨offset, ab', htake, hinv, .inl hfull⟩
  | shared hfull hlow hlt hroom =>
    obtain ⟨offset, ab', htake, hinv⟩ := (h.nextHint (ab.cpuIndexHint cpu) hlt).takeUnit hlt hroom
    exact .inl ⟨offset, ab', htake, hinv, .inr ⟨hlow, hlt, hroom⟩⟩
  | @lost j hfull hnone => exact .inr ⟨⟨j, rfl⟩, not_or.mpr ⟨not_not.mpr hfull, hnone⟩⟩

/-- A call stays in range exactly if the hints serve it. -/
theorem inRange_kissMalloc_iff {ab : AllocBlock} (h : HintInv ab) {cpu : ℕ} (hcpu : cpu < cpuIndexHints)
    (size : ℕ) : InRange (kissMalloc cpu size ab) ↔ HintsServe cpu size ab := by
  unfold kissMalloc
  split
  case isTrue hsize => exact iff_of_true trivial (.inl hsize)
  case isFalse hsize =>
    by_cases hwhole : ab.WholeWords
    · by_cases hfree : ab.freeBlocks = 0
      · rw [findFirstAvailable, if_neg (not_not.mpr ⟨hwhole, hcpu.le⟩), if_pos hfree]
        exact iff_of_true trivial (.inr (.inr (.inl hfree)))
      · rcases h.findFirstAvailable hcpu hwhole hfree with
          ⟨offset, ab', hfind, -, hserve⟩ | ⟨⟨j, hfind⟩, hserve⟩
        · rw [hfind]
          exact iff_of_true trivial (.inr (.inr (.inr hserve)))
        · rw [hfind]
          refine iff_of_false not_false fun hall => ?_
          rcases hall with hall | hall | hall | hall
          · exact hsize hall
          · exact hall hwhole
          · exact hfree hall
          · exact hserve hall
    · rw [findFirstAvailable, if_pos fun hboth => hwhole hboth.1]
      exact iff_of_true trivial (.inr (.inl hwhole))

/-- A call that returns leaves hints that are words. -/
theorem HintInv.of_kissMalloc {ab ab' : AllocBlock} (h : HintInv ab) {cpu size address : ℕ}
    (hcpu : cpu < cpuIndexHints) (hcall : kissMalloc cpu size ab = .ok (address, ab')) :
    HintInv ab' := by
  unfold kissMalloc at hcall
  split at hcall
  case isTrue => cases hcall
  case isFalse =>
    by_cases hwhole : ab.WholeWords
    · by_cases hfree : ab.freeBlocks = 0
      · rw [Kiss.findFirstAvailable, if_neg (not_not.mpr ⟨hwhole, hcpu.le⟩), if_pos hfree] at hcall
        cases hcall
        exact h
      · rcases h.findFirstAvailable hcpu hwhole hfree with
          ⟨offset, ab'', hfind, hinv, -⟩ | ⟨⟨j, hfind⟩, -⟩
        · rw [hfind] at hcall
          cases hcall
          exact hinv
        · rw [hfind] at hcall
          cases hcall
    · rw [Kiss.findFirstAvailable, if_pos fun hboth => hwhole hboth.1] at hcall
      cases hcall

/-- `kiss_free` does not touch the hints. -/
theorem HintInv.of_kissFree {ab ab' : AllocBlock} (h : HintInv ab) {address : ℕ}
    (hcall : kissFree address ab = .ok ab') : HintInv ab' := by
  unfold kissFree at hcall
  split at hcall
  case isTrue =>
    cases hcall
    exact h
  case isFalse =>
    cases hlocate : ab.locate address with
    | error e =>
      rw [hlocate] at hcall
      cases hcall
    | ok place =>
      rw [hlocate] at hcall
      change (ab.bitsetAt place.1).bind _ = _ at hcall
      cases hword : ab.bitsetAt place.1 with
      | error e =>
        rw [hword] at hcall
        cases hcall
      | ok current =>
        rw [hword] at hcall
        change (if clearUnit current place.2 = current then _ else _) = _ at hcall
        split at hcall
        case isTrue => cases hcall
        case isFalse =>
          cases hcall
          exact h.update _ _

/-- The hints as they are set by `create_alloc_map`. -/
theorem Created.hintInv {ab : AllocBlock} (h : Created ab) : HintInv ab where
  words := h.largestIndexHint.symm
  small := by
    have hlength := h.length
    have hwords := h.bitsetLength
    have henough := h.enough
    have hlargest := h.largestIndexHint
    have hpos : 0 < wordBytes ab.unitSize := Nat.pos_of_ne_zero fun hzero => by
      rw [hzero, Nat.div_zero] at hwords
      omega
    have hbytes : 64 ≤ wordBytes ab.unitSize := by
      unfold wordBytes bitsPerUll at *
      omega
    have hle : ab.length / wordBytes ab.unitSize ≤ ab.length / 64 :=
      Nat.div_le_div_left hbytes (by decide)
    omega
  enough := h.enough
  hints := by
    intro cpu hcpu
    have henough := h.enough
    rw [h.hints]
    omega
  next_gt := by
    rw [h.nextIndexHint]
    exact Nat.lt_succ_self _
  next_le := by
    rw [h.nextIndexHint]
    exact h.enough

/-! ## Runs -/

/-- A call of the allocator. -/
inductive Call where
  | malloc (cpu size : ℕ)
  | free (address : ℕ)
deriving DecidableEq, Repr

/-- The block after a call that returns. -/
def callStep (ab : AllocBlock) : Call → Option AllocBlock
  | .malloc cpu size =>
    match kissMalloc cpu size ab with
    | .ok (_, ab') => some ab'
    | .error _ => none
  | .free address =>
    match kissFree address ab with
    | .ok ab' => some ab'
    | .error _ => none

/-- A block that `create_alloc_map` has returned. -/
def IsCreated (ab : AllocBlock) : Prop :=
  ∃ baseAddr file unitSize largePageCount, createAllocMap baseAddr file unitSize largePageCount = .ok ab

/-- The processor exists, and the hints serve it. -/
def Served (ab : AllocBlock) : Call → Prop
  | .malloc cpu size => cpu < cpuIndexHints ∧ HintsServe cpu size ab
  | .free _ => True

theorem hintInv_of_runs {ab : AllocBlock} (hs : Runs IsCreated callStep Served ab) : HintInv ab := by
  apply hs.invariant
  · rintro ab ⟨baseAddr, file, unitSize, largePageCount, h⟩
    exact (created_of_createAllocMap h).hintInv
  · intro ab call ab' h hserved hstep
    cases call with
    | malloc cpu size =>
      cases hcall : kissMalloc cpu size ab with
      | error e =>
        rw [callStep, hcall] at hstep
        cases hstep
      | ok r =>
        rw [callStep, hcall] at hstep
        cases hstep
        exact h.of_kissMalloc hserved.1 hcall
    | free address =>
      cases hcall : kissFree address ab with
      | error e =>
        rw [callStep, hcall] at hstep
        cases hstep
      | ok r =>
        rw [callStep, hcall] at hstep
        cases hstep
        exact h.of_kissFree hcall

/-- **The hints stay in range as long as they serve.**  In every run of allocations and frees in
which the hints serve every allocation, an allocation stays in range exactly if they serve it. -/
theorem hints_in_range {ab : AllocBlock} (hs : Runs IsCreated callStep Served ab) {cpu : ℕ}
    (hcpu : cpu < cpuIndexHints) (size : ℕ) :
    InRange (kissMalloc cpu size ab) ↔ HintsServe cpu size ab :=
  inRange_kissMalloc_iff (hintInv_of_runs hs) hcpu size

/-! ## Long runs -/

/-- A mapping of 256 words of units of 4096 bytes, laid out. -/
def wideBlock : AllocBlock := markHeader (mappedBlock (2 ^ 21) (fun _ => 0#64) 4096 32)

/-- A mapping of 129 words of units of 32768 bytes, laid out: there is one word for each processor, and
no shared hint is left. -/
def narrowBlock : AllocBlock := markHeader (mappedBlock (2 ^ 21) (fun _ => 0#64) 32768 129)

/-- The layout of a block with a header of one unit. -/
theorem isCreated_of_fits {unitSize largePageCount : ℕ} {file : ℕ → BitVec 64}
    (hword : wordBytes unitSize ≠ 0)
    (henough : cpuIndexHints < mapLength largePageCount / wordBytes unitSize)
    (hlength : mapLength largePageCount ≠ 0)
    (h : Fits (mappedBlock (2 ^ 21) file unitSize largePageCount) 1) :
    IsCreated (markHeader (mappedBlock (2 ^ 21) file unitSize largePageCount)) := by
  have hhints : ∀ index < cpuIndexHints,
      (mappedBlock (2 ^ 21) file unitSize largePageCount).cpuIndexHint index <
        (mappedBlock (2 ^ 21) file unitSize largePageCount).largestIndexHint := by
    intro index hindex
    show index + 1 < mapLength largePageCount / wordBytes unitSize
    omega
  refine ⟨2 ^ 21, file, unitSize, largePageCount, ?_⟩
  simp only [createAllocMap]
  rw [if_neg hword, if_pos hhints]
  exact (if_neg hlength).trans (h.layout (show 2 ^ 21 ≠ 0 by decide))

theorem isCreated_wideBlock : IsCreated wideBlock :=
  isCreated_of_fits (by decide) (by decide) (by decide)
    ⟨by decide, by decide, by decide, by decide, by decide, by decide⟩

theorem isCreated_narrowBlock : IsCreated narrowBlock :=
  isCreated_of_fits (by decide) (by decide) (by decide)
    ⟨by decide, by decide, by decide, by decide, by decide, by decide⟩

instance (ab : AllocBlock) (call : Call) : Decidable (Served ab call) :=
  match call with
  | .malloc _ _ => inferInstanceAs (Decidable (_ ∧ _))
  | .free _ => inferInstanceAs (Decidable True)

/-- Processor 0 fills the word of its hint and is served by the shared hint. -/
theorem hints_in_range_shared :
    ∃ ab, Runs IsCreated callStep Served ab ∧ ab.Full (ab.cpuIndexHint 0) ∧
      InRange (kissMalloc 0 8 ab) := by
  have hstart : Runs IsCreated callStep Served wideBlock := .start isCreated_wideBlock
  have hfill : (runActions (guarded callStep Served) wideBlock (List.replicate 64 (.malloc 0 8))).any
      (fun ab => decide (ab.Full (ab.cpuIndexHint 0) ∧ HintsServe 0 8 ab)) = true := by
    decide +kernel
  obtain ⟨ab, hs, htest⟩ := hstart.exists_of_guarded hfill
  obtain ⟨hfull, hserve⟩ := of_decide_eq_true htest
  exact ⟨ab, hs, hfull, (hints_in_range hs (by decide) 8).mpr hserve⟩

/-- How a call stops. -/
def stopOf {α : Type} : Except Stop α → Option Stop
  | .ok _ => none
  | .error e => some e

/-- **A word as the subscript of a hint.**  Processor 127 fills word 128; its next call stores at
`cpu_index_hint[128]`.  Processor 0 fills word 1; with the shared hint used up, its next call takes
130 of 129 words for an index, and stores at `cpu_index_hint[130]`. -/
theorem hint_subscript_out_of_range :
    (∃ ab, Runs IsCreated callStep (fun _ _ => True) ab ∧
      stopOf (kissMalloc 127 8 ab) = some (.cpuIndexHint 128)) ∧
    ∃ ab, Runs IsCreated callStep (fun _ _ => True) ab ∧
      stopOf (kissMalloc 0 8 ab) = some (.cpuIndexHint 130) := by
  have hstart : Runs IsCreated callStep (fun _ _ => True) narrowBlock := .start isCreated_narrowBlock
  have hown : (runActions callStep narrowBlock (List.replicate 64 (.malloc 127 8))).any
      (fun ab => decide (stopOf (kissMalloc 127 8 ab) = some (.cpuIndexHint 128))) = true := by
    decide +kernel
  have hwrap : (runActions callStep narrowBlock (List.replicate 64 (.malloc 0 8))).any
      (fun ab => decide (stopOf (kissMalloc 0 8 ab) = some (.cpuIndexHint 130))) = true := by
    decide +kernel
  obtain ⟨ab, hs, htest⟩ := hstart.exists_of_actions hown
  obtain ⟨ab', hs', htest'⟩ := hstart.exists_of_actions hwrap
  exact ⟨⟨ab, hs, of_decide_eq_true htest⟩, ab', hs', of_decide_eq_true htest'⟩

end NvmMalloc.Kiss
