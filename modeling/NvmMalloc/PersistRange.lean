import NvmMalloc.Types

/-!
# What `nvm_persist` writes back

Reference: `src/util.c` (`clflush_range`, `clflushopt_range`, `clwb_range`), `src/util.h`
(`PERSIST_RANGE`), `src/nvm_malloc.c` (`nvm_persist`).

The loop visits every line of the range, from the line of its first byte on.  The instruction inside does
not get the line: in `asm volatile ("clflush %0" : "+m" (ptr))` the operand is the object that the
expression `ptr` denotes, and that is the parameter of the helper, a variable on the stack, not what it
points to.
-/

namespace NvmMalloc

/-! ## The model -/

/-- `CACHE_LINE_SIZE` -/
@[simp] def cacheLineSize : ℕ := 64

/-- The three flush instructions. -/
inductive FlushInstr where
  | clflush
  | clflushopt
  | clwb
deriving DecidableEq

/-- The two fences. -/
inductive Fence where
  | mfence
  | sfence
deriving DecidableEq

/-- An executed instruction; a flush writes back the line of its effective address. -/
inductive PersistInstr where
  | flush (instr : FlushInstr) (addr : ℕ)
  | fence (f : Fence)
deriving DecidableEq

/-- A variable of pointer type: where it is stored, and its value. -/
structure PtrVar where
  addr : ℕ
  value : ℕ

/-- What an `m` constraint is written with: the variable, or the object it points to. -/
inductive AsmOperand where
  | var (v : PtrVar)
  | deref (v : PtrVar)

/-- The effective address of a memory operand: that of the object the expression denotes. -/
def AsmOperand.addr : AsmOperand → ℕ
  | .var v => v.addr
  | .deref v => v.value

/-- `clflush`, `clflushopt` and `clwb`: the operand is written `"+m" (ptr)`. -/
def flushLine (instr : FlushInstr) (ptr : PtrVar) : PersistInstr :=
  .flush instr (AsmOperand.var ptr).addr

/-- The loop of `clflush_range`, `clflushopt_range` and `clwb_range`.  `frame k` is where the
parameter of the helper is stored in its call number `k`. -/
def flushLoop (instr : FlushInstr) (frame : ℕ → ℕ) : ℕ → ℕ → ℕ → ℕ → Option (List PersistInstr)
  | 0, _, _, _ => none
  | fuel + 1, k, start, stop =>
    if start < stop then
      (flushLoop instr frame fuel (k + 1) ((start + cacheLineSize) % 2 ^ 64) stop).map
        (flushLine instr ⟨frame k, start⟩ :: ·)
    else
      some []

/-- `clflush_range`, `clflushopt_range` and `clwb_range` -/
def flushRange (instr : FlushInstr) (frame : ℕ → ℕ) (fuel ptr len : ℕ) : Option (List PersistInstr) :=
  flushLoop instr frame fuel 0 (ptr / cacheLineSize * cacheLineSize) ((ptr + len) % 2 ^ 64)

/-- The fence of `PERSIST_RANGE` in each variant. -/
def FlushInstr.fence : FlushInstr → Fence
  | .clflush => .mfence
  | .clflushopt | .clwb => .sfence

/-- `nvm_persist` -/
def nvmPersist (instr : FlushInstr) (frame : ℕ → ℕ) (fuel ptr nBytes : ℕ) :
    Option (List PersistInstr) :=
  (flushRange instr frame fuel ptr nBytes).map fun is =>
    .fence instr.fence :: is ++ [.fence instr.fence]

/-- The line `l` has a byte of the range. -/
def LineOf (ptr nBytes l : ℕ) : Prop := ∃ x, ptr ≤ x ∧ x < ptr + nBytes ∧ x / cacheLineSize = l

/-- The line `l` lies in the range after both ends are moved outwards to line boundaries. -/
def InHull (ptr nBytes l : ℕ) : Prop :=
  ptr / cacheLineSize ≤ l ∧ cacheLineSize * l < ptr + nBytes

/-- `nvm_persist` returns, and it has written back every line of the range, and no line of NVM
outside its hull. -/
def PersistCovers (instr : FlushInstr) (frame : ℕ → ℕ) (isNvm : ℕ → Prop) (ptr nBytes : ℕ) : Prop :=
  ∃ fuel₀, ∀ fuel, fuel₀ ≤ fuel → ∃ is, nvmPersist instr frame fuel ptr nBytes = some is ∧
    (∀ l, LineOf ptr nBytes l → ∃ a, .flush instr a ∈ is ∧ a / cacheLineSize = l) ∧
    ∀ i a, .flush i a ∈ is → isNvm a → InHull ptr nBytes (a / cacheLineSize)

/-- The calls of the helper for a range. -/
def flushCalls (ptr nBytes : ℕ) : ℕ := (ptr + nBytes + 63) / cacheLineSize - ptr / cacheLineSize

/-- By accident the variables of the helper lie in all lines of the range, and in no line of NVM outside
its hull. -/
def FramesCover (frame : ℕ → ℕ) (isNvm : ℕ → Prop) (ptr nBytes : ℕ) : Prop :=
  (∀ l, LineOf ptr nBytes l → ∃ k < flushCalls ptr nBytes, frame k / cacheLineSize = l) ∧
  ∀ k < flushCalls ptr nBytes, isNvm (frame k) → InHull ptr nBytes (frame k / cacheLineSize)

/-! ## The loop -/

section

variable {instr : FlushInstr} {frame : ℕ → ℕ} {isNvm : ℕ → Prop} {ptr nBytes : ℕ}

/-- The loop calls the helper once a line. -/
theorem flushLoop_eq {fuel k start stop n : ℕ} (hstop : stop + 64 ≤ 2 ^ 64)
    (hn : n = (stop - start + 63) / 64) (hfuel : n < fuel) :
    flushLoop instr frame fuel k start stop =
      some ((List.range' k n).map fun j => .flush instr (frame j)) := by
  induction fuel generalizing k start n with
  | zero => omega
  | succ fuel ih =>
    unfold flushLoop
    by_cases hlt : start < stop
    · obtain ⟨m, rfl⟩ : ∃ m, n = m + 1 := ⟨n - 1, by omega⟩
      have hnext : (start + cacheLineSize) % 2 ^ 64 = start + 64 :=
        Nat.mod_eq_of_lt (by simp only [cacheLineSize]; omega)
      rw [if_pos hlt, hnext, ih (n := m) (by omega) (by omega), List.range'_succ]
      rfl
    · obtain rfl : n = 0 := by omega
      rw [if_neg hlt]
      rfl

/-- What `nvm_persist` executes. -/
theorem nvmPersist_eq (hrange : ptr + nBytes + 64 ≤ 2 ^ 64) {fuel : ℕ}
    (hfuel : flushCalls ptr nBytes < fuel) :
    nvmPersist instr frame fuel ptr nBytes = some (.fence instr.fence ::
      ((List.range' 0 (flushCalls ptr nBytes)).map fun j => .flush instr (frame j)) ++
        [.fence instr.fence]) := by
  have hcalls : flushCalls ptr nBytes =
      (ptr + nBytes - ptr / cacheLineSize * cacheLineSize + 63) / 64 := by
    simp only [flushCalls, cacheLineSize]
    omega
  unfold nvmPersist flushRange
  rw [Nat.mod_eq_of_lt (show ptr + nBytes < 2 ^ 64 by omega), flushLoop_eq hrange hcalls hfuel]
  rfl

/-- The flushes of `nvm_persist` are those of the variables of the helper. -/
theorem mem_nvmPersist (instr : FlushInstr) (frame : ℕ → ℕ) (hrange : ptr + nBytes + 64 ≤ 2 ^ 64)
    {fuel : ℕ}
    (hfuel : flushCalls ptr nBytes < fuel) : ∃ is, nvmPersist instr frame fuel ptr nBytes = some is ∧
      ∀ i a, .flush i a ∈ is ↔ i = instr ∧ ∃ k < flushCalls ptr nBytes, frame k = a := by
  refine ⟨_, nvmPersist_eq hrange hfuel, fun i a => ?_⟩
  simp only [List.mem_append, List.mem_cons, List.mem_map, List.mem_range'_1, reduceCtorEq, false_or,
    List.not_mem_nil, or_false, PersistInstr.flush.injEq, Nat.zero_le, true_and, Nat.zero_add]
  constructor
  · rintro ⟨k, hk, rfl, rfl⟩
    exact ⟨rfl, k, hk, rfl⟩
  · rintro ⟨rfl, k, hk, rfl⟩
    exact ⟨k, hk, rfl, rfl⟩

/-- What is covered is covered by the variables of the helper. -/
theorem PersistCovers.frames (hrange : ptr + nBytes + 64 ≤ 2 ^ 64)
    (h : PersistCovers instr frame isNvm ptr nBytes) : FramesCover frame isNvm ptr nBytes := by
  obtain ⟨fuel₀, hall⟩ := h
  obtain ⟨is, his, hlines, hhull⟩ := hall (max fuel₀ (flushCalls ptr nBytes + 1)) (le_max_left _ _)
  obtain ⟨is', his', hmem⟩ := mem_nvmPersist instr frame hrange
    (lt_of_lt_of_le (Nat.lt_succ_self _) (le_max_right fuel₀ (flushCalls ptr nBytes + 1)))
  obtain rfl : is = is' := Option.some.inj (his.symm.trans his')
  refine ⟨fun l hl => ?_, fun k hk hnvm => ?_⟩
  · obtain ⟨a, ha, hline⟩ := hlines l hl
    obtain ⟨-, k, hk, rfl⟩ := (hmem instr a).mp ha
    exact ⟨k, hk, hline⟩
  · exact hhull instr _ ((hmem instr _).mpr ⟨rfl, k, hk, rfl⟩) hnvm

/-- With its stack outside NVM, a range in NVM is covered only if it is empty. -/
theorem framesCover_nvm_iff (hstack : ∀ k x, x / cacheLineSize = frame k / cacheLineSize → ¬ isNvm x)
    (hnvm : ∀ x, ptr ≤ x → x < ptr + nBytes → isNvm x) :
    FramesCover frame isNvm ptr nBytes ↔ nBytes = 0 := by
  constructor
  · rintro ⟨hlines, -⟩
    by_contra hne
    obtain ⟨k, -, hk⟩ := hlines _ ⟨ptr, le_rfl, by omega, rfl⟩
    exact hstack k ptr hk.symm (hnvm ptr le_rfl (by omega))
  · rintro rfl
    refine ⟨fun l hl => ?_, fun k _ hk => absurd hk (hstack k _ rfl)⟩
    obtain ⟨x, hlo, hhi, -⟩ := hl
    omega

/-- **`nvm_persist` covers its range only by accident**: it returns, but it writes back the lines of the
variables of its helper.  With the stack outside NVM, a range in NVM is covered only if it is empty. -/
theorem persist_covers_iff (instr : FlushInstr) (frame : ℕ → ℕ) (isNvm : ℕ → Prop)
    (hrange : ptr + nBytes + 64 ≤ 2 ^ 64) :
    (PersistCovers instr frame isNvm ptr nBytes ↔ FramesCover frame isNvm ptr nBytes) ∧
      ((∀ k x, x / cacheLineSize = frame k / cacheLineSize → ¬ isNvm x) →
        (∀ x, ptr ≤ x → x < ptr + nBytes → isNvm x) →
        (PersistCovers instr frame isNvm ptr nBytes ↔ nBytes = 0)) := by
  have hiff : PersistCovers instr frame isNvm ptr nBytes ↔ FramesCover frame isNvm ptr nBytes := by
    refine ⟨PersistCovers.frames hrange, ?_⟩
    rintro ⟨hlines, hhull⟩
    refine ⟨flushCalls ptr nBytes + 1, fun fuel hfuel => ?_⟩
    obtain ⟨is, his, hmem⟩ := mem_nvmPersist instr frame hrange hfuel
    refine ⟨is, his, fun l hl => ?_, fun i a ha hnvm => ?_⟩
    · obtain ⟨k, hk, hline⟩ := hlines l hl
      exact ⟨frame k, (hmem instr _).mpr ⟨rfl, k, hk, rfl⟩, hline⟩
    · obtain ⟨-, k, hk, rfl⟩ := (hmem i a).mp ha
      exact hhull k hk hnvm
  exact ⟨hiff, fun hstack hnvm => hiff.trans (framesCover_nvm_iff hstack hnvm)⟩

end

/-- A stack far above the mapping of the NVM. -/
def sampleFrame : ℕ → ℕ := fun _ => 140737488340000

/-- The mapping of the NVM. -/
def sampleNvm (x : ℕ) : Prop := 4096000000 ≤ x ∧ x < 8192000000

theorem sampleFrame_not_nvm {k x : ℕ} (h : x / cacheLineSize = sampleFrame k / cacheLineSize) :
    ¬ sampleNvm x := by
  simp only [sampleFrame, cacheLineSize] at h
  unfold sampleNvm
  omega

/-- The variable of the helper itself is written back, but not a page of NVM. -/
theorem persist_covers_frame : PersistCovers .clwb sampleFrame sampleNvm 140737488340000 8 ∧
    (PersistCovers .clwb sampleFrame sampleNvm 4096000000 4096 ↔ 4096 = 0) := by
  refine ⟨(persist_covers_iff .clwb sampleFrame _ (by decide)).1.mpr
    ⟨fun l hl => ⟨0, by decide, ?_⟩, fun k _ hk => absurd hk (sampleFrame_not_nvm rfl)⟩,
    (persist_covers_iff .clwb sampleFrame _ (by decide)).2 (fun k x => sampleFrame_not_nvm)
      fun x hlo hhi => ?_⟩
  · obtain ⟨x, hlo, hhi, rfl⟩ := hl
    simp only [sampleFrame, cacheLineSize]
    omega
  · unfold sampleNvm
    omega

theorem not_persistCovers_line (instr : FlushInstr) :
    ¬ PersistCovers instr sampleFrame sampleNvm 4096000000 64 := by
  intro hcovers
  have hframes := hcovers.frames (by decide)
  have hempty := (framesCover_nvm_iff (fun k x => sampleFrame_not_nvm) fun x hlo hhi => ?_).mp hframes
  · exact absurd hempty (by decide)
  · unfold sampleNvm
    omega

/-- One line of NVM is not written back, in no variant. -/
theorem persist_misses_line :
    ¬ PersistCovers .clflush sampleFrame sampleNvm 4096000000 64 ∧
      ¬ PersistCovers .clflushopt sampleFrame sampleNvm 4096000000 64 ∧
      ¬ PersistCovers .clwb sampleFrame sampleNvm 4096000000 64 :=
  ⟨not_persistCovers_line _, not_persistCovers_line _, not_persistCovers_line _⟩

end NvmMalloc
