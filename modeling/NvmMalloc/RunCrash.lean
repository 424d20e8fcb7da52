import NvmMalloc.RecoveredRegion
import NvmMalloc.RunLock

/-!
# A crash among concurrent activations and frees

Reference: `src/nvm_malloc.c` (`nvm_activate`, small regions, and `nvm_initialize_recovered`),
`src/arena.c` (`arena_free`, small regions).

Any number of activations and frees of distinct slots of one run are in progress when the process
crashes.  Recovery finds the header as the last store left it: the bitmap, the state, and one redo
record. If a log entry names the run, it redoes at most one operation.  That is enough: as long as
no operation with links gets in while another one clears its record, every operation that had
reached its commit point is done after recovery, its links included, and of every other one nothing
is left.  Frees are not logged; a free that was committed and had not cleared its bit is lost unless
an activation left an entry. -/

namespace NvmMalloc

open Memory Interleaving

/-- `h` is the run header on page `p`. -/
structure RunHeader.At (h : RunHeader) (m : Mem) (p : ℕ) : Prop where
  state : field m (4096 * p) stateF = usageRun + h.state
  bitIdx : field m (4096 * p) bitIdxF = h.bitIdx
  on : ∀ i < 2, (field m (4096 * p) (onPtrF runOn i), field m (4096 * p) (onValueF runOn i)) = h.on i
  bitmap : ∀ j < 64, bitmapBit m (4096 * p) j = h.bitmap j

/-- The links of an operation; the second one is looked at only if there is a first one. -/
def RunOp.links (op : RunOp) : List (ℕ × ℕ) :=
  match op.link1, op.link2 with
  | none, _ => []
  | some x, none => [x]
  | some x, some y => [x, y]

/-- The words that a replay of the links stores: the absolute addresses of their targets. -/
def RunOp.words (nvmStart : ℕ) (op : RunOp) : List (ℕ × ℕ) :=
  op.links.map fun x => (x.1, relToAbsWithNull nvmStart x.2)

/-- The operation has passed its commit point: the store of its commit state if it has links, and of its
bit otherwise. -/
def RunPhase.Committed (ph : RunPhase) : Prop := ph.Marked ∨ ph = .marking

section

variable {ι : Type} [DecidableEq ι] {ops : ι → RunOp} {s : RunState ι} {k : ι} {m : Mem} {p : ℕ}
  {op : RunOp} {h : RunHeader} {P : Process} {L : Layout} {r : ℕ} {img : Nvm} {w₀ w : World}

/-- The log loop finds the links of an operation in its record. -/
theorem RunOp.Recorded.recordedWords (hrec : op.Recorded h) (hat : h.At m p)
    (hlinks : ∀ x ∈ op.links, x.1 ≠ 0) : recordedWords m (4096 * p) runOn = op.links := by
  obtain ⟨h0, h0'⟩ := Prod.mk.inj ((hat.on 0 (by decide)).trans hrec.on0)
  obtain ⟨h1, h1'⟩ := Prod.mk.inj ((hat.on 1 (by decide)).trans hrec.on1)
  rw [NvmMalloc.recordedWords, h0, h0', h1, h1']
  obtain ⟨kind, idx, link1, link2⟩ := op
  cases link1 <;> cases link2 <;> simp_all [RunOp.links]

/-- The log loop marks the slot of the recorded operation. -/
theorem RunOp.Recorded.redoneBit (hrec : op.Recorded h) (hat : h.At m p)
    (hstate : h.state = op.kind.committed) {j : ℕ} (hj : j < 64) :
    redoneBit m (4096 * p) j =
      Function.update h.bitmap op.idx (decide (op.kind = .activate)) j := by
  rw [NvmMalloc.redoneBit, hat.state, hat.bitIdx, hat.bitmap j hj, hrec.bitIdx, hstate,
    Function.update_apply]
  cases op.kind <;> simp [SlotOp.committed, eq_comm]

omit [DecidableEq ι] in
/-- The one operation that a header in a commit state belongs to. -/
theorem RunInv.pending (hinv : RunInv ops s) (hat : s.header.At m p)
    (hst : RunStateOk (field m (4096 * p) stateF)) (hpend : Pending m p) :
    ∃ k, (s.phase k).Committed ∧ (∀ j, s.phase j = .marking → j = k) ∧ (ops k).Recorded s.header ∧
      s.header.state = (ops k).kind.committed := by
  have hcommitted : s.header.state = stateActivating ∨ s.header.state = stateFreeing := by
    have hstate := hat.state
    simp only [RunStateOk, List.mem_cons, List.not_mem_nil, or_false] at hst
    unfold Pending at hpend
    rcases hst with hst | hst | hst | hst | hst <;> rw [hst] at hpend hstate <;>
      simp at hpend hstate ⊢ <;> omega
  obtain ⟨k, hholder, hph, hrec, hstate⟩ := hinv.committed hcommitted
  refine ⟨k, ?_, fun j hj => ?_, hrec, hstate⟩
  · rcases hph with hph | hph <;> rw [hph]
    · exact .inr rfl
    · exact .inl trivial
  · have hj' := (hinv.holder j (by rw [hj]; trivial)).1
    exact Option.some.inj (hj'.symm.trans hholder)

end

instance (h : RunHeader) (m : Mem) (p : ℕ) : Decidable (h.At m p) :=
  decidable_of_iff (field m (4096 * p) stateF = usageRun + h.state ∧
    field m (4096 * p) bitIdxF = h.bitIdx ∧
    (∀ i < 2, (field m (4096 * p) (onPtrF runOn i), field m (4096 * p) (onValueF runOn i)) = h.on i) ∧
    ∀ j < 64, bitmapBit m (4096 * p) j = h.bitmap j)
    ⟨fun ⟨h1, h2, h3, h4⟩ => ⟨h1, h2, h3, h4⟩, fun ⟨h1, h2, h3, h4⟩ => ⟨h1, h2, h3, h4⟩⟩

end NvmMalloc
