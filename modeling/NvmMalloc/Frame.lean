import NvmMalloc.System

/-!
# What the stores to NVM leave alone

Reference: `src/arena.c`, `src/nvm_malloc.c`, `src/util.h`.

A store to the backing file changes its bytes and nothing else.  An invariant that does not look at
the bytes is therefore kept by every part of the library that only stores, loads and flushes: among
these are the header protocols of `nvm_activate` and `nvm_free`.
-/

namespace NvmMalloc

open CrashM

/-- The invariant does not look at the bytes of the backing file. -/
class IgnoresMem (I : World → Prop) : Prop where
  setMem : ∀ {w : World}, I w → ∀ m, I (w.setMem m)

section

variable {I : World → Prop}

/-! ## Loads and flushes -/

variable {a n h : ℕ} {f : NvmField}

instance : Preserves I (persistRange a n) := preserves_emit

instance : Preserves I (persist a) := preserves_emit

instance : Preserves I (persistAbs a) := preserves_emit

instance : Preserves I persistMeta := preserves_emit

instance : Preserves I (loadField h f) := preserves_bind

instance {c : Prop} [Decidable c] : Preserves I (assertThat c) := preserves_ite

/-! ## Stores -/

variable [IgnoresMem I] {i k on st committed final runIdx v : ℕ} {l : Link} {l1 l2 : Option Link}

instance : Preserves I (storeAt a n v) := preserves_commit fun _ h => IgnoresMem.setMem h _

instance : Preserves I (storeField h f v) := by
  unfold storeField
  infer_instance

instance : Preserves I (memset0 a n) := preserves_commits fun _ _ h => IgnoresMem.setMem h _

/-! ## Header protocols -/

instance : Preserves I (recordLink h on k l) := by
  unfold recordLink
  infer_instance

instance : Preserves I (writeLink l) := by
  unfold writeLink
  infer_instance

instance : Preserves I (linkProtocol h on st l1 l2) := by
  unfold linkProtocol
  cases l1 with
  | none => infer_instance
  | some l1 => cases l2 <;> infer_instance

instance : Preserves I (commitHeader h committed final l1 l2) := by
  unfold commitHeader
  infer_instance

instance : Preserves I (setNvmBit h i) := by
  unfold setNvmBit
  infer_instance

instance : Preserves I (clearNvmBit h i) := by
  unfold clearNvmBit
  infer_instance

instance : Preserves I (acquireRun h st) := by
  unfold acquireRun
  infer_instance

instance {mark : Prog Unit} [Preserves I mark] :
    Preserves I (commitRun h committed runIdx mark l1 l2) := by
  unfold commitRun
  infer_instance

instance : Preserves I (nvmActivateSmall a h l1 l2) := by
  dsimp only [nvmActivateSmall]
  infer_instance

end

end NvmMalloc
