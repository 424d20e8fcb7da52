import NvmMalloc.Types
import NvmMalloc.Lib.Interleaving

/-!
# The activation log under concurrency

Reference: `src/nvm_malloc.c` (`log_activate`, `nvm_activate`, the log loop of
`nvm_initialize_recovered`).

Any number of activations run at the same time.  Each one draws a number with an atomic fetch-and-add,
stores its pointer in the slot of that number modulo `max_log_entries`, and then takes its header through
PREACTIVATE (small regions, with a compare-and-swap that spins while another operation holds the run) and
ACTIVATING (if there are links) to INITIALIZED.  The stores in between touch neither the log nor the
state byte.

Nothing ties the reuse of a slot to the end of the activation that filled it.
-/

namespace NvmMalloc

open Interleaving

/-- The arguments of an `nvm_activate` call: the relative pointer, its header, whether the region is
small, and whether there are links. -/
structure Activation where
  ptr : ℕ
  header : ℕ
  small : Bool
  links : Bool

/-- How far an activation has come; the number is its slot of the log. -/
inductive Phase where
  | start
  | drawn (slot : ℕ)
  | logged (slot : ℕ)
  | preactivate (slot : ℕ)
  | activating (slot : ℕ)
  | finished
deriving DecidableEq

/-- The slot that must not be drawn: an activation needs its slot from the fetch-and-add to the store of
INITIALIZED, but one that goes neither through PREACTIVATE nor through ACTIVATING no longer needs it once
the pointer is stored. -/
def Activation.slot? (a : Activation) : Phase → Option ℕ
  | .logged i => if a.small ∨ a.links then some i else none
  | .drawn i | .preactivate i | .activating i => some i
  | .start | .finished => none

/-- The header is in PREACTIVATE or ACTIVATING. -/
def Phase.InFlight : Phase → Prop
  | .preactivate _ | .activating _ => True
  | _ => False

/-- The shared state: `next_log_entry`, the log, the state bits of the headers, and the progress of each
activation. -/
structure RingState (ι : Type) where
  nextLogEntry : ℕ
  log : ℕ → ℕ
  header : ℕ → ℕ
  phase : ι → Phase

section

variable {ι : Type} [DecidableEq ι] (act : ι → Activation)

/-- Activation `k` moves its header to `st` and itself to `ph`. -/
def RingState.moveHeader (s : RingState ι) (k : ι) (st : ℕ) (ph : Phase) : RingState ι :=
  { s with
    header := Function.update s.header (act k).header st
    phase := Function.update s.phase k ph }

/-- The next atomic action of activation `k`. -/
def ringStep (s : RingState ι) (k : ι) : Option (RingState ι) :=
  match s.phase k with
  | .start =>
    some { s with
      nextLogEntry := (s.nextLogEntry + 1) % 2 ^ 64
      phase := Function.update s.phase k (.drawn (s.nextLogEntry % maxLogEntries)) }
  | .drawn i =>
    some { s with
      log := Function.update s.log i (act k).ptr
      phase := Function.update s.phase k (.logged i) }
  | .logged i =>
    if (act k).small then
      -- the compare-and-swap
      if s.header (act k).header = stateInitialized then
        some (s.moveHeader act k statePreactivate (.preactivate i))
      else
        none
    else if (act k).links then
      some (s.moveHeader act k stateActivating (.activating i))
    else
      some (s.moveHeader act k stateInitialized .finished)
  | .preactivate i =>
    if (act k).links then
      some (s.moveHeader act k stateActivating (.activating i))
    else
      some (s.moveHeader act k stateInitialized .finished)
  | .activating _ => some (s.moveHeader act k stateInitialized .finished)
  | .finished => none

/-- No activation has started; log and headers hold whatever the process found. -/
def RingState.Initial (s : RingState ι) : Prop := ∀ k, s.phase k = .start

/-- A fetch-and-add does not draw a slot that is needed. -/
def SlotUnused (s : RingState ι) (k : ι) : Prop :=
  s.phase k = .start → ∀ j, (act j).slot? (s.phase j) ≠ some (s.nextLogEntry % maxLogEntries)

instance {n : ℕ} (act : Fin n → Activation) (s : RingState (Fin n)) (k : Fin n) :
    Decidable (SlotUnused act s k) :=
  inferInstanceAs (Decidable (_ → ∀ _, _))

/-- The log holds the pointer of every activation in flight. -/
def InFlightLogged (s : RingState ι) : Prop :=
  ∀ k, (s.phase k).InFlight → ∃ i < maxLogEntries, s.log i = (act k).ptr

/-! ## One action -/

variable {act} {s s' : RingState ι} {k : ι}

/-- What an action does: it draws a slot, fills the slot it holds, or moves on, leaves the log alone and
holds no other slot. -/
theorem ringStep_cases (h : ringStep act s k = some s') :
    (s.phase k = .start ∧ s'.log = s.log ∧
      s'.phase = Function.update s.phase k (.drawn (s.nextLogEntry % maxLogEntries))) ∨
    (∃ i, s.phase k = .drawn i ∧ s'.log = Function.update s.log i (act k).ptr ∧
      s'.phase = Function.update s.phase k (.logged i)) ∨
    (∃ ph, s'.log = s.log ∧ s'.phase = Function.update s.phase k ph ∧
      ∀ i, (act k).slot? ph = some i → (act k).slot? (s.phase k) = some i ∧ s.phase k ≠ .drawn i) := by
  unfold ringStep at h
  split at h <;> rename_i hph <;> rw [hph]
  · cases h
    exact .inl ⟨rfl, rfl, rfl⟩
  · cases h
    exact .inr (.inl ⟨_, rfl, rfl, rfl⟩)
  · split at h
    · split at h <;> cases h
      exact .inr (.inr ⟨_, rfl, rfl, by simp_all [Activation.slot?]⟩)
    · split at h <;> cases h <;> exact .inr (.inr ⟨_, rfl, rfl, by simp_all [Activation.slot?]⟩)
  · split at h <;> cases h <;> exact .inr (.inr ⟨_, rfl, rfl, by simp [Activation.slot?]⟩)
  · cases h
    exact .inr (.inr ⟨_, rfl, rfl, by simp [Activation.slot?]⟩)
  · cases h

/-- The slots that are needed differ, and one that was filled still holds the pointer of its
activation. -/
structure RingInv (act : ι → Activation) (s : RingState ι) : Prop where
  bound : ∀ k i, (act k).slot? (s.phase k) = some i → i < maxLogEntries
  distinct : ∀ {j k i}, (act j).slot? (s.phase j) = some i → (act k).slot? (s.phase k) = some i → j = k
  filled : ∀ k i, (act k).slot? (s.phase k) = some i → s.phase k ≠ .drawn i → s.log i = (act k).ptr

/-- The first action of an activation: the new slot is nobody else's. -/
theorem RingInv.draw (h : RingInv act s) {i : ℕ} (hi : i < maxLogEntries)
    (hunused : ∀ j, (act j).slot? (s.phase j) ≠ some i) (hlog : s'.log = s.log)
    (hphase : s'.phase = Function.update s.phase k (.drawn i)) : RingInv act s' := by
  have hself : s'.phase k = .drawn i := by rw [hphase, Function.update_self]
  have hother : ∀ {j}, j ≠ k → s'.phase j = s.phase j := fun hj => by
    rw [hphase, Function.update_of_ne hj]
  refine ⟨?_, fun {j l x} hj hl => ?_, ?_⟩
  · rw [hphase]
    exact (Function.forall_update_iff s.phase fun k ph => ∀ i, (act k).slot? ph = some i →
      i < maxLogEntries).mpr ⟨fun x hx => Option.some.inj hx ▸ hi, fun j _ => h.bound j⟩
  · by_cases hjk : j = k <;> by_cases hlk : l = k
    · rw [hjk, hlk]
    · rw [hjk, hself] at hj
      rw [hother hlk, ← Option.some.inj hj] at hl
      exact absurd hl (hunused l)
    · rw [hlk, hself] at hl
      rw [hother hjk, ← Option.some.inj hl] at hj
      exact absurd hj (hunused j)
    · rw [hother hjk] at hj
      rw [hother hlk] at hl
      exact h.distinct hj hl
  · rw [hphase, hlog]
    exact (Function.forall_update_iff s.phase
      fun k ph => ∀ i, (act k).slot? ph = some i → ph ≠ .drawn i →
      s.log i = (act k).ptr).mpr ⟨fun x hx hne => absurd (congrArg Phase.drawn (Option.some.inj hx)) hne,
        fun j _ => h.filled j⟩

/-- An activation that keeps or gives back its slot, and has stored its pointer in a slot it keeps. -/
theorem RingInv.move (h : RingInv act s) {ph : Phase} (hphase : s'.phase = Function.update s.phase k ph)
    (hkeep : ∀ i, (act k).slot? ph = some i →
      (act k).slot? (s.phase k) = some i ∧ s'.log i = (act k).ptr)
    (hlog : ∀ i, s'.log i = s.log i ∨ (act k).slot? (s.phase k) = some i) : RingInv act s' := by
  have hold : ∀ j i, (act j).slot? (s'.phase j) = some i → (act j).slot? (s.phase j) = some i := by
    rw [hphase]
    exact (Function.forall_update_iff s.phase fun j ph => ∀ i, (act j).slot? ph = some i →
      (act j).slot? (s.phase j) = some i).mpr ⟨fun i hi => (hkeep i hi).1, fun _ _ _ => id⟩
  refine ⟨fun j i hj => h.bound j i (hold j i hj),
    fun hj hl => h.distinct (hold _ _ hj) (hold _ _ hl), ?_⟩
  rw [hphase]
  refine (Function.forall_update_iff s.phase fun j ph => ∀ i, (act j).slot? ph = some i → ph ≠ .drawn i →
    s'.log i = (act j).ptr).mpr ⟨fun i hi _ => (hkeep i hi).2, fun j hj i hi hne => ?_⟩
  rcases hlog i with hsame | hk
  · rw [hsame]
    exact h.filled j i hi hne
  · -- the slot that was written belongs to another activation
    exact absurd (h.distinct hi hk) hj

/-- **Every action keeps the invariant** if no fetch-and-add draws a slot that is needed. -/
theorem RingInv.step (h : RingInv act s) (hunused : SlotUnused act s k)
    (hstep : ringStep act s k = some s') : RingInv act s' := by
  rcases ringStep_cases hstep with ⟨hph, hlog, hphase⟩ | ⟨i, hph, hlog, hphase⟩ |
    ⟨ph, hlog, hphase, hkeep⟩
  · exact h.draw (Nat.mod_lt _ (by decide)) (hunused hph) hlog hphase
  · refine h.move hphase (fun x hx => ?_) fun x => ?_ <;> rw [hph, hlog]
    · obtain rfl : i = x := by
        rw [Activation.slot?] at hx
        split at hx <;> cases hx
        rfl
      exact ⟨rfl, Function.update_self ..⟩
    · by_cases hx : x = i
      · exact .inr (by rw [hx]; rfl)
      · exact .inl (Function.update_of_ne hx ..)
  · refine h.move hphase (fun x hx => ?_) fun x => .inl (by rw [hlog])
    rw [hlog]
    exact ⟨(hkeep x hx).1, h.filled k x (hkeep x hx).1 (hkeep x hx).2⟩

omit [DecidableEq ι] in
theorem RingInv.of_initial (h : s.Initial) : RingInv act s := by
  have hnone : ∀ k i, (act k).slot? (s.phase k) ≠ some i := fun k i => by simp [h k, Activation.slot?]
  exact ⟨fun k i hk => absurd hk (hnone k i), fun hj _ => absurd hj (hnone _ _),
    fun k i hk => absurd hk (hnone k i)⟩

omit [DecidableEq ι] in
/-- An activation in flight holds a slot and has filled it. -/
theorem RingInv.inFlightLogged (h : RingInv act s) : InFlightLogged act s := by
  intro k hk
  obtain ⟨i, hi, hne⟩ : ∃ i, (act k).slot? (s.phase k) = some i ∧ s.phase k ≠ .drawn i := by
    generalize s.phase k = ph at hk
    cases ph with
    | preactivate i | activating i => exact ⟨i, rfl, by simp⟩
    | _ => exact hk.elim
  exact ⟨i, h.bound k i hi, h.filled k i hi hne⟩

end

/-! ## Whole runs -/

/-- **Every in-flight activation is logged** in every run in which no fetch-and-add draws the slot of an
activation that has not finished; one of a large region without links counts only until its pointer is
stored. -/
theorem inflight_logged {ι : Type} [DecidableEq ι] {act : ι → Activation} {s : RingState ι}
    (hs : Runs RingState.Initial (ringStep act) (SlotUnused act) s) : InFlightLogged act s := by
  have hinv : RingInv act s :=
    hs.invariant (fun _ h => .of_initial h) fun _ _ _ h hunused hstep => h.step hunused hstep
  exact hinv.inFlightLogged

/-- Activations of large regions with links, each with a pointer and a header of its own. -/
def linkedActivations (k : ℕ) : Activation := ⟨k + 1, k, false, true⟩

/-- Nothing has started. -/
def quietRing (ι : Type) : RingState ι := ⟨0, fun _ => 0, fun _ => stateInitialized, fun _ => .start⟩

/-- A small region, a large one without links and a large one with links. -/
def mixedActivations (k : Fin 3) : Activation := ⟨k + 1, k, k.val = 0, k.val = 2⟩

/-- Three activations: the second one has only stored its pointer, the others are in flight. -/
theorem inflight_logged_three : ∃ s, Runs RingState.Initial (ringStep mixedActivations)
    (SlotUnused mixedActivations) s ∧ s.phase 0 = .preactivate 0 ∧ s.phase 1 = .logged 1 ∧
    s.phase 2 = .activating 2 ∧ (∃ i < maxLogEntries, s.log i = 1) ∧
    ∃ i < maxLogEntries, s.log i = 3 := by
  have hstart : Runs RingState.Initial (ringStep mixedActivations) (SlotUnused mixedActivations)
      (quietRing (Fin 3)) := .start fun _ => rfl
  have hrun : ((runActions (guarded (ringStep mixedActivations) (SlotUnused mixedActivations))
      (quietRing (Fin 3)) [0, 1, 2, 2, 0, 1, 0, 2]).any fun s => decide (s.phase 0 = .preactivate 0 ∧
        s.phase 1 = .logged 1 ∧ s.phase 2 = .activating 2)) = true := by
    decide +kernel
  obtain ⟨s, hs, htest⟩ := hstart.exists_of_guarded hrun
  obtain ⟨h0, h1, h2⟩ := of_decide_eq_true htest
  have hlogged := inflight_logged hs
  exact ⟨s, hs, h0, h1, h2, hlogged 0 (by rw [h0]; trivial), hlogged 2 (by rw [h2]; trivial)⟩

/-- Activation 0 reaches ACTIVATING; then activations 1 to 127 log themselves. -/
def overtaking : List ℕ :=
  [0, 0, 0] ++ (List.range 127).flatMap fun k => [k + 1, k + 1]

/-- After 127 others have overtaken it, an activation in flight is gone from the log. -/
theorem inflight_lost_after_127 : ∃ s, Runs RingState.Initial (ringStep linkedActivations)
    (fun _ _ => True) s ∧ ¬ InFlightLogged linkedActivations s := by
  have hrun : ((runActions (ringStep linkedActivations) (quietRing ℕ) overtaking).any fun s =>
      decide (s.phase 0 = .activating 0 ∧ ∀ i < maxLogEntries, s.log i ≠ (linkedActivations 0).ptr)) =
      true := by
    decide +kernel
  have hstart : RingState.Initial (quietRing ℕ) := fun _ => rfl
  obtain ⟨s, hs, htest⟩ := Runs.exists_of_actions (.start hstart) hrun
  obtain ⟨h0, hlost⟩ := of_decide_eq_true htest
  refine ⟨s, hs, fun hlogged => ?_⟩
  obtain ⟨i, hi, hptr⟩ := hlogged 0 (by rw [h0]; trivial)
  exact hlost i hi hptr

end NvmMalloc
