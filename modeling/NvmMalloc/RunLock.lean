import NvmMalloc.Types
import NvmMalloc.Lib.Interleaving

/-!
# The redo record of a run under concurrency

Reference: `src/nvm_malloc.c` (`nvm_activate`, small regions), `src/arena.c` (`arena_free`, small
regions), `src/types.h` (`nvm_run_header_s`).

Activations and frees of slots of one run exclude each other with a compare-and-swap on the state byte of
the run.  The holder writes its redo record (`bit_idx` and `on`), commits, marks the bitmap and stores
INITIALIZED, which lets the next operation in.  Only then it clears its record.
-/

namespace NvmMalloc

open Interleaving

/-! ## The model -/

/-- What is to be done with the slot. -/
inductive SlotOp where
  | activate
  | free
deriving DecidableEq

/-- The state of a run that an operation has acquired. -/
def SlotOp.pre : SlotOp → ℕ
  | .activate => statePreactivate
  | .free => statePrefree

/-- The state of a run that an operation has committed to. -/
def SlotOp.committed : SlotOp → ℕ
  | .activate => stateActivating
  | .free => stateFreeing

/-- An operation on a slot: its bit, and the links with their relative targets. -/
structure RunOp where
  kind : SlotOp
  idx : ℕ
  link1 : Option (ℕ × ℕ)
  link2 : Option (ℕ × ℕ)

/-- The part of `nvm_run_header_t` that the operations use; `on i` is `(on[i].ptr, on[i].value)`. -/
structure RunHeader where
  state : ℕ
  bitIdx : ℕ
  on : ℕ → ℕ × ℕ
  bitmap : ℕ → Bool

/-- A store to the redo record. -/
inductive RecordStore where
  | bitIdx (v : ℕ)
  | onPtr (i v : ℕ)
  | onValue (i v : ℕ)
deriving DecidableEq

/-- The header after a store to the redo record. -/
def RunHeader.apply (h : RunHeader) : RecordStore → RunHeader
  | .bitIdx v => { h with bitIdx := v }
  | .onPtr i v => { h with on := Function.update h.on i (v, (h.on i).2) }
  | .onValue i v => { h with on := Function.update h.on i ((h.on i).1, v) }

/-- The record of an operation, in the order of its stores. -/
def RunOp.record (op : RunOp) : List RecordStore :=
  .bitIdx op.idx ::
    match op.link1, op.link2 with
    | none, _ => []
    | some x, none => [.onPtr 0 x.1, .onValue 0 x.2]
    | some x, some y => [.onPtr 0 x.1, .onValue 0 x.2, .onPtr 1 y.1, .onValue 1 y.2]

/-- `bit_idx = -1` and the `memset` of `on`. -/
def clearRecord : List RecordStore :=
  [.bitIdx bitIdxNone, .onPtr 0 0, .onValue 0 0, .onPtr 1 0, .onValue 1 0]

/-- How far an operation has come: it waits for the run, writes its record, is about to mark the slot, is
about to store INITIALIZED, or clears the record. -/
inductive RunPhase where
  | waiting
  | recording (rest : List RecordStore)
  | marking
  | releasing
  | clearing (rest : List RecordStore)
deriving DecidableEq

/-- The operation is past its compare-and-swap and has not let the next one in. -/
def RunPhase.Holds : RunPhase → Prop
  | .recording _ | .marking | .releasing => True
  | _ => False

/-- The operation has changed the bitmap. -/
def RunPhase.Marked : RunPhase → Prop
  | .releasing | .clearing _ => True
  | _ => False

/-- The stores that an operation has left to clear its record. -/
def RunPhase.uncleared : RunPhase → List RecordStore
  | .clearing rest => rest
  | _ => []

/-- The header, the operation whose compare-and-swap succeeded last, and the progress of each
operation. -/
structure RunState (ι : Type) where
  header : RunHeader
  holder : Option ι
  phase : ι → RunPhase

section

variable {ι : Type} [DecidableEq ι] (ops : ι → RunOp)

/-- Operation `k` leaves the header `h` and moves to `ph`. -/
def RunState.move (s : RunState ι) (k : ι) (h : RunHeader) (ph : RunPhase) : RunState ι :=
  { s with header := h, phase := Function.update s.phase k ph }

/-- Set or clear the slot in the bitmap. -/
def RunOp.mark (op : RunOp) (h : RunHeader) : RunHeader :=
  { h with bitmap := Function.update h.bitmap op.idx (op.kind = .activate) }

/-- The next atomic action of operation `k`. -/
def runStep (s : RunState ι) (k : ι) : Option (RunState ι) :=
  match s.phase k with
  | .waiting =>
    -- the compare-and-swap
    if s.header.state = stateInitialized then
      some { s.move k { s.header with state := (ops k).kind.pre } (.recording (ops k).record) with
        holder := some k }
    else
      none
  | .recording (x :: rest) => some (s.move k (s.header.apply x) (.recording rest))
  | .recording [] =>
    if (ops k).link1.isSome then
      some (s.move k { s.header with state := (ops k).kind.committed } .marking)
    else
      some (s.move k ((ops k).mark s.header) .releasing)
  | .marking => some (s.move k ((ops k).mark s.header) .releasing)
  | .releasing =>
    some (s.move k { s.header with state := stateInitialized } (.clearing clearRecord))
  | .clearing (x :: rest) => some (s.move k (s.header.apply x) (.clearing rest))
  | .clearing [] => none

/-- A header without a redo record. -/
structure RunHeader.Clean (h : RunHeader) : Prop where
  bitIdx : h.bitIdx = bitIdxNone
  on0 : h.on 0 = (0, 0)
  on1 : h.on 1 = (0, 0)

/-- No operation has started and the header is clean. -/
def RunState.Initial (s : RunState ι) : Prop :=
  (∀ k, s.phase k = .waiting) ∧ s.header.state = stateInitialized ∧ s.header.Clean

/-- The header holds the record of `op`: its bit, its links, and nothing else. -/
structure RunOp.Recorded (op : RunOp) (h : RunHeader) : Prop where
  bitIdx : h.bitIdx = op.idx
  on0 : h.on 0 = op.link1.getD (0, 0)
  on1 : h.on 1 = op.link2.getD (0, 0)

/-- In a committed state the record is that of the operation that acquired the run last. -/
def RecordOfHolder (s : RunState ι) : Prop :=
  s.header.state = stateActivating ∨ s.header.state = stateFreeing →
    ∃ k, s.holder = some k ∧ (ops k).Recorded s.header

/-- The compare-and-swap of an operation with links succeeds only when no operation is still clearing its
record. -/
def NoneClearing (s : RunState ι) (k : ι) : Prop :=
  s.phase k = .waiting → (ops k).link1.isSome → ∀ j, (s.phase j).uncleared = []

instance {n : ℕ} (ops : Fin n → RunOp) (s : RunState (Fin n)) (k : Fin n) :
    Decidable (NoneClearing ops s k) :=
  inferInstanceAs (Decidable (_ → _ → ∀ _, _))

end

/-! ## One action -/

/-- What an action of `op` does with the header and with its phase. -/
inductive RunMove (op : RunOp) (h : RunHeader) : RunPhase → RunHeader → RunPhase → Prop where
  | acquire (hfree : h.state = stateInitialized) :
      RunMove op h .waiting { h with state := op.kind.pre } (.recording op.record)
  | record {x rest} : RunMove op h (.recording (x :: rest)) (h.apply x) (.recording rest)
  | commit (hlinks : op.link1.isSome) :
      RunMove op h (.recording []) { h with state := op.kind.committed } .marking
  | markUnlinked (hlinks : ¬ op.link1.isSome) : RunMove op h (.recording []) (op.mark h) .releasing
  | mark : RunMove op h .marking (op.mark h) .releasing
  | release : RunMove op h .releasing { h with state := stateInitialized } (.clearing clearRecord)
  | clear {x rest} : RunMove op h (.clearing (x :: rest)) (h.apply x) (.clearing rest)

section

variable {ι : Type} [DecidableEq ι] {ops : ι → RunOp} {s s' : RunState ι} {k : ι} {op : RunOp}
  {h h' : RunHeader} {ph ph' : RunPhase}

theorem runStep_iff : runStep ops s k = some s' ↔ ∃ h ph, RunMove (ops k) s.header (s.phase k) h ph ∧
    s' = ⟨h, if s.phase k = .waiting then some k else s.holder, Function.update s.phase k ph⟩ := by
  constructor
  · intro hstep
    unfold runStep at hstep
    split at hstep <;> rename_i hph <;> rw [hph]
    · split at hstep <;> cases hstep
      exact ⟨_, _, .acquire ‹_›, rfl⟩
    · cases hstep
      exact ⟨_, _, .record, rfl⟩
    · split at hstep <;> cases hstep
      · exact ⟨_, _, .commit ‹_›, rfl⟩
      · exact ⟨_, _, .markUnlinked ‹_›, rfl⟩
    · cases hstep
      exact ⟨_, _, .mark, rfl⟩
    · cases hstep
      exact ⟨_, _, .release, rfl⟩
    · cases hstep
      exact ⟨_, _, .clear, rfl⟩
    · cases hstep
  · rintro ⟨h, ph, hmove, rfl⟩
    unfold runStep
    generalize s.phase k = ph₀ at hmove
    cases hmove with
    | acquire hfree => exact if_pos hfree
    | commit hlinks => exact if_pos hlinks
    | markUnlinked hlinks => exact if_neg hlinks
    | _ => rfl

@[simp] theorem RunHeader.apply_state (h : RunHeader) (x : RecordStore) :
    (h.apply x).state = h.state := by
  cases x <;> rfl

@[simp] theorem RunHeader.apply_bitmap (h : RunHeader) (x : RecordStore) :
    (h.apply x).bitmap = h.bitmap := by
  cases x <;> rfl

/-- What an action means for a lock that is free or not and that its operation holds or not. -/
structure LockStep (held free held' free' : Prop) : Prop where
  acquire : ¬ held → held' → free ∧ ¬ free'
  busy : held → held' → ¬ free → ¬ free'
  release : held → ¬ held' → free'
  outside : ¬ held → ¬ held' → (free' ↔ free)

theorem RunMove.lockStep (hmove : RunMove op h ph h' ph') :
    LockStep ph.Holds (h.state = stateInitialized) ph'.Holds (h'.state = stateInitialized) := by
  have hkind : op.kind.pre ≠ stateInitialized ∧ op.kind.committed ≠ stateInitialized := by
    cases op.kind <;> decide
  cases hmove <;> constructor <;> simp_all [RunPhase.Holds, RunOp.mark]

/-! ## The record -/

/-- Two stores that clear a record commute. -/
theorem RunHeader.apply_comm {x y : RecordStore} (hx : x ∈ clearRecord) (hy : y ∈ clearRecord) :
    (h.apply x).apply y = (h.apply y).apply x := by
  simp only [clearRecord, List.mem_cons, List.not_mem_nil, or_false] at hx hy
  rcases hx with rfl | rfl | rfl | rfl | rfl <;> rcases hy with rfl | rfl | rfl | rfl | rfl <;>
    simp [RunHeader.apply, Function.update_comm]

theorem RunHeader.apply_idem {x : RecordStore} (hx : x ∈ clearRecord) :
    (h.apply x).apply x = h.apply x := by
  simp only [clearRecord, List.mem_cons, List.not_mem_nil, or_false] at hx
  rcases hx with rfl | rfl | rfl | rfl | rfl <;> simp [RunHeader.apply]

/-- A header is clean if the stores that clear a record have no effect on it. -/
theorem RunHeader.clean_iff : h.Clean ↔ ∀ x ∈ clearRecord, h.apply x = h := by
  constructor
  · rintro ⟨hbit, h0, h1⟩ x hx
    have hon : ∀ i, h.on i = (0, 0) → Function.update h.on i (0, 0) = h.on := fun i hi => by
      rw [← hi, Function.update_eq_self]
    simp only [clearRecord, List.mem_cons, List.not_mem_nil, or_false] at hx
    rcases hx with rfl | rfl | rfl | rfl | rfl <;>
      simp only [RunHeader.apply, ← hbit, h0, h1, hon 0 h0, hon 1 h1]
  · intro hclear
    have hall : ∀ xs ⊆ clearRecord, xs.foldl RunHeader.apply h = h := by
      intro xs
      induction xs with
      | nil => exact fun _ => rfl
      | cons x xs ih =>
        intro hsub
        rw [List.foldl_cons, hclear x (hsub List.mem_cons_self), ih (List.cons_subset.mp hsub).2]
    rw [← hall clearRecord (List.Subset.refl _)]
    exact ⟨rfl, rfl, rfl⟩

/-- Writing the record into a clean header. -/
theorem RunOp.recorded_of_clean (hclean : h.Clean) (hlinks : op.link1.isSome) :
    op.Recorded (op.record.foldl RunHeader.apply h) := by
  obtain ⟨kind, idx, link1, link2⟩ := op
  cases link1 with
  | none => exact absurd hlinks (by simp)
  | some x =>
    cases link2 with
    | none => exact ⟨rfl, rfl, hclean.on1⟩
    | some y => exact ⟨rfl, rfl, rfl⟩

/-- The header while the holder is in phase `ph`. -/
inductive HeaderAt (op : RunOp) (h : RunHeader) : RunPhase → Prop where
  | recording {rest} (hstate : h.state = op.kind.pre)
      (hrec : op.link1.isSome → ∃ h₀ done, h₀.Clean ∧ done ++ rest = op.record ∧
        h = done.foldl RunHeader.apply h₀) : HeaderAt op h (.recording rest)
  | marking (hlinks : op.link1.isSome) (hrec : op.Recorded h) (hstate : h.state = op.kind.committed) :
      HeaderAt op h .marking
  | releasing (hstate : h.state = op.kind.pre ∨
      op.link1.isSome ∧ op.Recorded h ∧ h.state = op.kind.committed) : HeaderAt op h .releasing

theorem HeaderAt.state_ne (hat : HeaderAt op h ph) :
    h.state ≠ stateInitialized := by
  have hpre : op.kind.pre ≠ stateInitialized := by cases op.kind <;> decide
  have hcommitted : op.kind.committed ≠ stateInitialized := by cases op.kind <;> decide
  cases hat with
  | recording hstate => exact hstate ▸ hpre
  | marking _ _ hstate => exact hstate ▸ hcommitted
  | releasing hstate =>
    rcases hstate with hstate | ⟨-, -, hstate⟩
    · exact hstate ▸ hpre
    · exact hstate ▸ hcommitted

/-- An operation without links does not care for the record. -/
theorem HeaderAt.apply (hat : HeaderAt op h ph) (hlinks : ¬ op.link1.isSome) (x : RecordStore) :
    HeaderAt op (h.apply x) ph := by
  cases hat with
  | recording hstate =>
    exact .recording ((h.apply_state x).trans hstate) fun hsome => absurd hsome hlinks
  | marking hsome => exact absurd hsome hlinks
  | releasing hstate =>
    exact .releasing (.inl ((h.apply_state x).trans (hstate.resolve_right fun hsome => hlinks hsome.1)))

/-! ## The invariant -/

/-- One operation holds the run.  If it has links, nobody is clearing a record, and its own is as far as
it has got; without a holder, what is left of records will be cleared. -/
structure RunInv (ops : ι → RunOp) (s : RunState ι) : Prop where
  free : (∀ k, ¬ (s.phase k).Holds) → s.header.state = stateInitialized
  holder : ∀ k, (s.phase k).Holds → s.holder = some k ∧ HeaderAt (ops k) s.header (s.phase k)
  alone : ∀ k, (s.phase k).Holds → (ops k).link1.isSome → ∀ j, (s.phase j).uncleared = []
  clears : ∀ k, (s.phase k).uncleared ⊆ clearRecord
  clean : ∀ x ∈ clearRecord, s.header.apply x = s.header ∨
    ∃ j, (s.phase j).Holds ∨ x ∈ (s.phase j).uncleared

omit [DecidableEq ι] in
theorem RunInv.eq_holder (hinv : RunInv ops s) {j : ι} (hj : (s.phase j).Holds)
    (hk : (s.phase k).Holds) : j = k :=
  Option.some.inj ((hinv.holder j hj).1.symm.trans (hinv.holder k hk).1)

theorem RunPhase.Holds.uncleared (hph : ph.Holds) : ph.uncleared = [] := by
  cases ph <;> first | rfl | exact hph.elim

/-- The holder goes on. -/
theorem RunInv.hold (hinv : RunInv ops s) (hk : (s.phase k).Holds) (hph : ph.Holds)
    (hat : HeaderAt (ops k) h ph) : RunInv ops ⟨h, s.holder, Function.update s.phase k ph⟩ := by
  have hnone := hph.uncleared
  have hothers : ∀ j, j ≠ k → ¬ (s.phase j).Holds := fun j hne hj => hne (hinv.eq_holder hj hk)
  exact
    { free := fun hfree => absurd hph (by simpa using hfree k)
      holder := (Function.forall_update_iff s.phase fun j ph => ph.Holds → s.holder = some j ∧
        HeaderAt (ops j) h ph).mpr ⟨fun _ => ⟨(hinv.holder k hk).1, hat⟩, fun j hne hj =>
          absurd hj (hothers j hne)⟩
      alone := fun j hj hlinks => by
        have hjk : j = k := by
          by_contra hne
          simp only [Function.update_of_ne hne] at hj
          exact hothers j hne hj
        exact (Function.forall_update_iff s.phase fun _ ph => ph.uncleared = []).mpr
          ⟨hnone, fun i _ => hinv.alone k hk (hjk ▸ hlinks) i⟩
      clears := (Function.forall_update_iff s.phase fun _ ph => ph.uncleared ⊆ clearRecord).mpr
        ⟨by simp [hnone], fun j _ => hinv.clears j⟩
      clean := fun x _ => .inr ⟨k, .inl (by simpa using hph)⟩ }

/-- A compare-and-swap. -/
theorem RunInv.acquire (hinv : RunInv ops s) (hguard : NoneClearing ops s k)
    (hwait : s.phase k = .waiting) (hfree : s.header.state = stateInitialized) :
    RunInv ops ⟨{ s.header with state := (ops k).kind.pre }, some k,
      Function.update s.phase k (.recording (ops k).record)⟩ := by
  have hnone : ∀ j, ¬ (s.phase j).Holds := fun j hj => (hinv.holder j hj).2.state_ne hfree
  -- nobody is clearing a record, so all of them are cleared
  have hclean : (ops k).link1.isSome → { s.header with state := (ops k).kind.pre }.Clean := by
    intro hlinks
    have hall : s.header.Clean := by
      refine RunHeader.clean_iff.mpr fun x hx => (hinv.clean x hx).resolve_right ?_
      rintro ⟨j, hj | hmem⟩
      · exact hnone j hj
      · simp [hguard hwait hlinks j] at hmem
    exact ⟨hall.bitIdx, hall.on0, hall.on1⟩
  exact
    { free := fun hno => absurd trivial (by simpa [RunPhase.Holds] using hno k)
      holder := (Function.forall_update_iff s.phase fun j ph => ph.Holds → some k = some j ∧
        HeaderAt (ops j) { s.header with state := (ops k).kind.pre } ph).mpr
          ⟨fun _ => ⟨rfl, .recording rfl fun hlinks => ⟨_, [], hclean hlinks, rfl, rfl⟩⟩,
            fun j _ hj => absurd hj (hnone j)⟩
      alone := (Function.forall_update_iff s.phase fun j ph => ph.Holds → (ops j).link1.isSome → _).mpr
        ⟨fun _ hlinks => (Function.forall_update_iff s.phase fun _ ph => ph.uncleared = []).mpr
          ⟨rfl, fun j _ => hguard hwait hlinks j⟩, fun j _ hj => absurd hj (hnone j)⟩
      clears := (Function.forall_update_iff s.phase fun _ ph => ph.uncleared ⊆ clearRecord).mpr
        ⟨List.nil_subset _, fun j _ => hinv.clears j⟩
      clean := fun x _ => .inr ⟨k, .inl (by simp [RunPhase.Holds])⟩ }

/-- The store of INITIALIZED. -/
theorem RunInv.release (hinv : RunInv ops s) (hk : (s.phase k).Holds) :
    RunInv ops ⟨{ s.header with state := stateInitialized }, s.holder,
      Function.update s.phase k (.clearing clearRecord)⟩ := by
  have hnone : ∀ j, ¬ (Function.update s.phase k (.clearing clearRecord) j).Holds :=
    (Function.forall_update_iff s.phase fun _ ph => ¬ ph.Holds).mpr
      ⟨id, fun j hne hj => hne (hinv.eq_holder hj hk)⟩
  exact
    { free := fun _ => rfl
      holder := fun j hj => absurd hj (hnone j)
      alone := fun j hj => absurd hj (hnone j)
      clears := (Function.forall_update_iff s.phase fun _ ph => ph.uncleared ⊆ clearRecord).mpr
        ⟨List.Subset.refl _, fun j _ => hinv.clears j⟩
      clean := fun x hx => .inr ⟨k, .inr (by simpa [RunPhase.uncleared] using hx)⟩ }

/-- A store that clears a part of a record: the holder, if there is one, has no links. -/
theorem RunInv.clear (hinv : RunInv ops s) {x : RecordStore} {rest : List RecordStore}
    (hph : s.phase k = .clearing (x :: rest)) :
    RunInv ops ⟨s.header.apply x, s.holder, Function.update s.phase k (.clearing rest)⟩ := by
  have hown : (s.phase k).uncleared = x :: rest := by rw [hph, RunPhase.uncleared]
  have hsub := hown ▸ hinv.clears k
  have hunlinked : ∀ j, (s.phase j).Holds → ¬ (ops j).link1.isSome := fun j hj hlinks => by
    simp [hinv.alone j hj hlinks k] at hown
  refine
    { free := fun hnone => ?_
      holder := (Function.forall_update_iff s.phase fun j ph => ph.Holds → s.holder = some j ∧
        HeaderAt (ops j) _ ph).mpr ⟨False.elim, fun j _ hj => ⟨(hinv.holder j hj).1,
          (hinv.holder j hj).2.apply (hunlinked j hj) x⟩⟩
      alone := (Function.forall_update_iff s.phase fun j ph => ph.Holds → (ops j).link1.isSome → _).mpr
        ⟨False.elim, fun j _ hj hlinks => absurd hlinks (hunlinked j hj)⟩
      clears := (Function.forall_update_iff s.phase fun _ ph => ph.uncleared ⊆ clearRecord).mpr
        ⟨(List.cons_subset.mp hsub).2, fun j _ => hinv.clears j⟩
      clean := fun y hy => ?_ }
  · rw [RunHeader.apply_state]
    refine hinv.free fun j => ?_
    by_cases hne : j = k
    · rw [hne, hph]
      exact id
    · simpa [Function.update_of_ne hne] using hnone j
  · have hx : x ∈ clearRecord := hsub List.mem_cons_self
    by_cases hyx : y = x
    · rw [hyx]
      exact .inl (RunHeader.apply_idem hx)
    · refine (hinv.clean y hy).imp (fun hsame => ?_) (Exists.imp fun j hj => ?_)
      · rw [RunHeader.apply_comm hx hy, hsame]
      · by_cases hne : j = k
        · rw [hne, hph] at hj
          simp only [hne, Function.update_self]
          exact hj.imp id fun hmem => (List.mem_cons.mp hmem).resolve_left hyx
        · simpa only [Function.update_of_ne hne] using hj

/-- **Every action keeps the invariant** if no operation with links gets in while another one clears its
record. -/
theorem RunInv.step (hinv : RunInv ops s) (hguard : NoneClearing ops s k)
    (hstep : runStep ops s k = some s') : RunInv ops s' := by
  obtain ⟨h', ph', hmove, rfl⟩ := runStep_iff.mp hstep
  have hat := hinv.holder k
  generalize hph : s.phase k = ph at hmove hat
  have hholds : ph.Holds → (s.phase k).Holds := fun hk => hph ▸ hk
  cases hmove with
  | acquire hfree => exact hinv.acquire hguard hph hfree
  | @record x rest =>
    refine hinv.hold (hholds trivial) trivial ?_
    obtain @⟨_, hstate, hrec⟩ := (hat trivial).2
    refine .recording ((RunHeader.apply_state _ x).trans hstate) fun hlinks => ?_
    obtain ⟨h₀, done, hclean, hsplit, hheader⟩ := hrec hlinks
    exact ⟨h₀, done ++ [x], hclean, by rw [List.append_assoc, List.singleton_append, hsplit],
      by rw [List.foldl_append, ← hheader]; rfl⟩
  | commit hlinks =>
    refine hinv.hold (hholds trivial) trivial (.marking hlinks ?_ rfl)
    obtain @⟨_, hstate, hrec⟩ := (hat trivial).2
    obtain ⟨h₀, done, hclean, hsplit, hheader⟩ := hrec hlinks
    rw [List.append_nil] at hsplit
    obtain ⟨h1, h2, h3⟩ := RunOp.recorded_of_clean hclean hlinks
    rw [← hsplit, ← hheader] at h1 h2 h3
    exact ⟨h1, h2, h3⟩
  | markUnlinked =>
    obtain @⟨_, hstate, -⟩ := (hat trivial).2
    exact hinv.hold (hholds trivial) trivial (.releasing (.inl hstate))
  | mark =>
    obtain - | ⟨hlinks, hrec, hstate⟩ := (hat trivial).2
    exact hinv.hold (hholds trivial) trivial
      (.releasing (.inr ⟨hlinks, ⟨hrec.bitIdx, hrec.on0, hrec.on1⟩, hstate⟩))
  | release => exact hinv.release (hholds trivial)
  | clear => exact hinv.clear hph

omit [DecidableEq ι] in
/-- In a committed state the holder has its links recorded. -/
theorem RunInv.committed (hinv : RunInv ops s)
    (hstate : s.header.state = stateActivating ∨ s.header.state = stateFreeing) :
    ∃ k, s.holder = some k ∧ (s.phase k = .marking ∨ s.phase k = .releasing) ∧
      (ops k).Recorded s.header ∧ s.header.state = (ops k).kind.committed := by
  have hne : s.header.state ≠ stateInitialized ∧ ∀ kind : SlotOp, s.header.state ≠ kind.pre := by
    rcases hstate with hst | hst <;> rw [hst] <;>
      exact ⟨by decide, fun kind => by cases kind <;> decide⟩
  obtain ⟨k, hk⟩ : ∃ k, (s.phase k).Holds := by
    by_contra hnone
    exact hne.1 (hinv.free fun k hk => hnone ⟨k, hk⟩)
  obtain ⟨hholder, hat⟩ := hinv.holder k hk
  refine ⟨k, hholder, ?_⟩
  generalize s.phase k = ph at hat
  cases hat with
  | recording hpre => exact absurd hpre (hne.2 _)
  | marking _ hrec hcommitted => exact ⟨.inl rfl, hrec, hcommitted⟩
  | releasing hreleasing =>
    rcases hreleasing with hpre | ⟨-, hrec, hcommitted⟩
    · exact absurd hpre (hne.2 _)
    · exact ⟨.inr rfl, hrec, hcommitted⟩

omit [DecidableEq ι] in
theorem RunState.Initial.inv (hinit : s.Initial) : RunInv ops s := by
  obtain ⟨hwait, hstate, hclean⟩ := hinit
  exact ⟨fun _ => hstate, fun k hk => by rw [hwait k] at hk; exact hk.elim, fun k hk => by
    rw [hwait k] at hk; exact hk.elim, fun k => by rw [hwait k]; exact List.nil_subset _,
    fun x hx => .inl (RunHeader.clean_iff.mp hclean x hx)⟩

/-! ## The bitmap -/

/-- The bits of the operations that have marked their slots, and the initial ones elsewhere. -/
structure MarkedBits (ops : ι → RunOp) (b₀ : ℕ → Bool) (s : RunState ι) : Prop where
  marked : ∀ k, (s.phase k).Marked → s.header.bitmap (ops k).idx = decide ((ops k).kind = .activate)
  unmarked : ∀ j, (∀ k, (ops k).idx = j → ¬ (s.phase k).Marked) → s.header.bitmap j = b₀ j

omit [DecidableEq ι] in
theorem MarkedBits.initial {b₀ : ℕ → Bool} (hwait : ∀ k, s.phase k = .waiting)
    (hbitmap : s.header.bitmap = b₀) : MarkedBits ops b₀ s :=
  ⟨fun k hk => by rw [hwait k] at hk; exact hk.elim, fun j _ => by rw [hbitmap]⟩

/-- An action changes the bitmap when its operation comes to be marked, and only then. -/
theorem RunMove.bitmap (hmove : RunMove op h ph h' ph') :
    (ph'.Marked ↔ ph.Marked) ∧ h'.bitmap = h.bitmap ∨ ¬ ph.Marked ∧ ph'.Marked ∧
      h'.bitmap = Function.update h.bitmap op.idx (decide (op.kind = .activate)) := by
  cases hmove with
  | markUnlinked | mark => exact .inr ⟨id, trivial, rfl⟩
  | acquire | commit | release => exact .inl ⟨.rfl, rfl⟩
  | record | clear => exact .inl ⟨.rfl, RunHeader.apply_bitmap _ _⟩

theorem MarkedBits.step {b₀ : ℕ → Bool} (hbits : MarkedBits ops b₀ s)
    (hops : Function.Injective fun k => (ops k).idx) (hstep : runStep ops s k = some s') :
    MarkedBits ops b₀ s' := by
  obtain ⟨h', ph', hmove, rfl⟩ := runStep_iff.mp hstep
  have hself : ∀ {j}, j ≠ k → (ops j).idx ≠ (ops k).idx := fun hne heq => hne (hops heq)
  rcases hmove.bitmap with ⟨hiff, hbitmap⟩ | ⟨-, hmarked, hbitmap⟩
  · have hsame : ∀ j, (Function.update s.phase k ph' j).Marked ↔ (s.phase j).Marked :=
      (Function.forall_update_iff s.phase fun j ph => ph.Marked ↔ (s.phase j).Marked).mpr
        ⟨hiff, fun _ _ => .rfl⟩
    exact ⟨fun j hj => by rw [hbitmap]; exact hbits.marked j ((hsame j).mp hj), fun j hj => by
      rw [hbitmap]
      exact hbits.unmarked j fun l hl hm => hj l hl ((hsame l).mpr hm)⟩
  · refine ⟨(Function.forall_update_iff s.phase fun j ph => ph.Marked → _).mpr ⟨fun _ => ?_,
      fun j hne hj => ?_⟩, fun j hj => ?_⟩
    · rw [hbitmap, Function.update_self]
    · rw [hbitmap, Function.update_of_ne (hself hne)]
      exact hbits.marked j hj
    · have hne : j ≠ (ops k).idx := by
        rintro rfl
        exact hj k rfl (by simpa only [Function.update_self] using hmarked)
      rw [hbitmap, Function.update_of_ne hne]
      refine hbits.unmarked j fun l hl => ?_
      have hlk : l ≠ k := by
        rintro rfl
        exact hne hl.symm
      simpa only [Function.update_of_ne hlk] using hj l hl

end

/-! ## Whole runs -/

/-- **The redo record belongs to the holder** in every run in which no operation with links acquires the
run header while another one is still clearing its record. -/
theorem record_of_holder {ι : Type} [DecidableEq ι] {ops : ι → RunOp} {s : RunState ι}
    (hs : Runs RunState.Initial (runStep ops) (NoneClearing ops) s) : RecordOfHolder ops s := by
  have hinv : RunInv ops s :=
    hs.invariant (fun _ hinit => hinit.inv) fun _ _ _ hinv hguard hstep => hinv.step hguard hstep
  intro hstate
  obtain ⟨k, hholder, -, hrec, -⟩ := hinv.committed hstate
  exact ⟨k, hholder, hrec⟩

/-- Activations of three slots, the first two with a link in the third. -/
def slotActivations (k : Fin 3) : RunOp :=
  ⟨.activate, k, if k = 2 then none else some (4190528 + 8 * k, 4190272), none⟩

/-- A run of which nothing is in progress. -/
def quietRun : RunState (Fin 3) :=
  ⟨⟨stateInitialized, bitIdxNone, fun _ => (0, 0), fun _ => false⟩, none, fun _ => .waiting⟩

theorem quietRun_initial : quietRun.Initial := ⟨fun _ => rfl, rfl, rfl, rfl, rfl⟩

/-- Activation 2, which has no links, gets in while activation 0 clears its record; when both are done,
activation 1 reaches ACTIVATING with its own. -/
theorem record_of_holder_three :
    ∃ s, Runs RunState.Initial (runStep slotActivations) (NoneClearing slotActivations) s ∧
      s.header.state = stateActivating ∧ ∃ k, s.holder = some k ∧
      (slotActivations k).Recorded s.header := by
  have hstart : Runs RunState.Initial (runStep slotActivations) (NoneClearing slotActivations)
      quietRun :=
    .start quietRun_initial
  have hrun : ((runActions (guarded (runStep slotActivations) (NoneClearing slotActivations)) quietRun
      (List.replicate 8 0 ++ List.replicate 4 2 ++ List.replicate 4 0 ++ List.replicate 5 2 ++
        List.replicate 5 1)).any fun s => decide (s.header.state = stateActivating)) = true := by
    decide +kernel
  obtain ⟨s, hs, htest⟩ := hstart.exists_of_guarded hrun
  have hstate := of_decide_eq_true htest
  exact ⟨s, hs, hstate, record_of_holder hs (.inl hstate)⟩

/-- Activation 0 stores INITIALIZED, activation 1 gets in and commits, and then activation 0 clears what
it takes for its own `bit_idx`. -/
def lateClearing : List (Fin 3) := [0, 0, 0, 0, 0, 0, 0, 1, 1, 1, 1, 1, 0]

/-- The record of an operation that is committed can be cleared by the one before it. -/
theorem record_cleared_by_predecessor : ∃ s, Runs RunState.Initial (runStep slotActivations)
    (fun _ _ => True) s ∧ ¬ RecordOfHolder slotActivations s := by
  have hrun : ((runActions (runStep slotActivations) quietRun lateClearing).any fun s =>
      decide (s.header.state = stateActivating ∧ s.holder = some 1 ∧ s.header.bitIdx = bitIdxNone)) =
      true := by
    decide +kernel
  obtain ⟨s, hs, htest⟩ := Runs.exists_of_actions (.start quietRun_initial) hrun
  obtain ⟨hstate, hholder, hidx⟩ := of_decide_eq_true htest
  refine ⟨s, hs, fun hrecord => ?_⟩
  obtain ⟨k, hk, hrec⟩ := hrecord (Or.inl hstate)
  rw [hholder, Option.some.injEq] at hk
  have hbit := hrec.bitIdx
  rw [hidx, ← hk] at hbit
  exact absurd hbit (by decide)

end NvmMalloc
