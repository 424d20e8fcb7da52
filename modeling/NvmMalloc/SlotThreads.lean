import NvmMalloc.SlotBitmaps

/-!
# Threads that share small objects

Reference: `src/nvm_malloc.c` (`nvm_reserve`, `nvm_activate`, small regions), `src/arena.c`
(`arena_allocate`, `arena_free`, small regions).

Two properties that the threads can rely on, in whatever order their steps come.

`slot_calls_return`: the only place where a call on a slot can be held up is the compare-and-swap on the
state of its run.  It waits for the one call that holds the run, and that one never waits.  So the calls
cannot block each other, and since every other step brings its call closer to the end, every schedule is
finite: when no step is left, all calls have returned and the bitmap is what they were to make of it.

`small_regions_apart`: the regions that the threads have reserved and not yet freed never overlap, and a
reservation hands out none of them again.
-/

namespace NvmMalloc

open Interleaving Threads

/-- A bound on the steps that a call has left. -/
def SlotPc.stepsLeft : SlotPc → ℕ
  | .loadUsage => 24
  | .casFree => 23
  | .loadVdata => 22
  | .loadVersion _ => 21
  | .compareVdata _ _ => 20
  | .storeVdata _ => 19
  | .storeVersion => 18
  | .reloadVdata | .loadBytes => 17
  | .loadElemSize _ | .casActivate _ => 16
  | .record _ rest => 10 + rest.length
  | .loadByte _ => 9
  | .storeByte _ _ => 8
  | .release _ => 7
  | .clear _ rest => 1 + rest.length
  | .done | .lost => 0

/-! ## Every call returns -/

section

variable {c : SlotCall} {s s' : SlotHeap} {pc pc' : SlotPc}

theorem SlotCall.length_record (c : SlotCall) (runIdx : ℕ) : (c.record runIdx).length ≤ 5 := by
  simp only [SlotCall.record, RunOp.record]
  split <;> simp

/-- Every step of a call brings it closer to its end. -/
theorem slotStep_left (hstep : slotStep c s pc = some (s', pc')) : pc'.stepsLeft < pc.stepsLeft := by
  have hrecord := c.length_record
  cases pc with
  | record v rest | clear v rest =>
    cases rest with
    | nil =>
      simp only [slotStep] at hstep
      split at hstep <;> obtain ⟨-, rfl⟩ := Prod.mk.inj (Option.some.inj hstep) <;>
        simp [SlotPc.stepsLeft]
    | cons x rest =>
      obtain ⟨-, rfl⟩ := Prod.mk.inj (Option.some.inj hstep)
      simp [SlotPc.stepsLeft]
  | _ =>
    simp only [slotStep] at hstep
    repeat' split at hstep
    all_goals cases hstep
    all_goals
      simp only [SlotPc.stepsLeft, clearRecord, List.length_cons, List.length_nil]
      grind

/-- A call can go on if it holds its run, or if nobody does. -/
theorem slotStep_ne_none (hfree : pc.Holds ∨ (s.header c.page).state = usageRun + stateInitialized)
    (hdone : pc ≠ .done) (hlost : pc ≠ .lost) : slotStep c s pc ≠ none := by
  cases pc with
  | casActivate runIdx => simp [slotStep, hfree.resolve_left id]
  | casFree => simp [slotStep, hfree.resolve_left id]
  | record v rest => cases rest <;> simp only [slotStep] <;> (try split) <;> simp
  | clear v rest => cases rest <;> simp only [slotStep] <;> (try split) <;> simp
  | done => exact absurd rfl hdone
  | lost => exact absurd rfl hlost
  | _ =>
    simp only [slotStep]
    repeat' split
    all_goals simp

end

section

variable {ι : Type} [DecidableEq ι] {call : ι → SlotCall} {slot : ι → ℕ} {p : ℕ} {s₀ : SlotHeap}
  {s : SlotSystem ι}

/-- Calls that cannot go on have returned: the holder of a run never waits, and without a holder nobody
does. -/
theorem LockInv.done_of_stuck (h : LockInv call slot (· = p) s.heap s.pc)
    (hpage : ∀ k, (call k).page = p)
    (hstuck : ∀ k, s.step call k = none) (k : ι) : s.pc k = .done := by
  have hlost : ∀ j, s.pc j ≠ .lost := fun j hj => by
    have hpc := h.pcs j
    rw [hj] at hpc
    exact hpc
  have hnone : ∀ j, slotStep (call j) s.heap (s.pc j) = none := fun j => by
    simpa [SlotSystem.step] using hstuck j
  have hholder : ∀ j, ¬ (s.pc j).Holds := by
    intro j hj
    refine slotStep_ne_none (.inl hj) (fun hdone => ?_) (hlost j) (hnone j)
    rw [hdone] at hj
    exact hj
  by_contra hdone
  refine slotStep_ne_none (.inr ?_) hdone (hlost k) (hnone k)
  rw [hpage k]
  exact h.free p rfl fun j hj => absurd hj (hholder j)

end

/-- **Concurrent activations and frees of slots all return.**  Whatever the schedule, each call takes at
most 24 steps, not counting the rounds in which its compare-and-swap fails; and when none of them can go
on, all have returned, the bits of their slots are set by the activations and cleared by the frees, every
other bit is as before, and the run is released. -/
theorem slot_calls_return {ι : Type} [DecidableEq ι] {call : ι → SlotCall} {slot : ι → ℕ}
    {p : ℕ} {s₀ : SlotHeap} (hcalls : CallsOnRun call slot p s₀) {schedule : List ι} {s : SlotSystem ι}
    (hrun : runActions (SlotSystem.step call) ⟨s₀, fun _ => .loadUsage⟩ schedule = some s) :
    (∀ k, schedule.count k ≤ 24) ∧ ((∀ k, s.step call k = none) →
      (∀ k, s.pc k = .done) ∧
      (∀ k, (s.heap.header p).bit (slot k) = decide ((call k).kind = .activate)) ∧
      (∀ j, (∀ k, slot k ≠ j) → (s.heap.header p).bit j = (s₀.header p).bit j) ∧
      (s.heap.header p).state = usageRun + stateInitialized) := by
  have hstart : Interleaved call s₀ ⟨s₀, fun _ => .loadUsage⟩ := .start rfl
  have h := hcalls.bitmapInv (hstart.of_actions hrun)
  refine ⟨fun k => ?_, fun hstuck => ?_⟩
  · have hdec : ∀ (s : SlotSystem ι) k s', s.step call k = some s' →
        (s'.pc k).stepsLeft < (s.pc k).stepsLeft ∧
          ∀ j ≠ k, (s'.pc j).stepsLeft ≤ (s.pc j).stepsLeft := by
      intro s k s' hstep
      obtain ⟨heap', pc', hcall, rfl⟩ := SlotSystem.step_eq_some hstep
      refine ⟨?_, fun j hj => ?_⟩
      · simp only [Function.update_self]
        exact slotStep_left hcall
      · simp only [Function.update_of_ne hj, le_refl]
    exact (Nat.le_add_right _ _).trans (count_le_of_measure hdec hrun k)
  · have hdone := h.lock.done_of_stuck hcalls.page_eq hstuck
    refine ⟨hdone, fun k => h.marked k ?_, fun j hj => h.unmarked j fun k hk => absurd hk (hj k), ?_⟩
    · rw [hdone k]
      trivial
    · refine h.lock.free p rfl fun k hk => ?_
      rw [hdone k] at hk
      exact hk.elim

/-- The two calls of one interleaving: after 32 steps both have returned. -/
theorem slot_calls_return_overlapping : ∃ s, runActions (SlotSystem.step twoCalls)
    ⟨twoSlots, fun _ => .loadUsage⟩ overlapping = some s ∧ (∀ k, overlapping.count k ≤ 24) ∧
      (s.heap.header 1).bit 0 = true ∧ (s.heap.header 1).bit 1 = false := by
  have hany : ((runActions (SlotSystem.step twoCalls) ⟨twoSlots, fun _ => .loadUsage⟩ overlapping).any
      fun s => (s.step twoCalls false).isNone && (s.step twoCalls true).isNone) = true := by
    decide +kernel
  obtain ⟨s, hrun, htest⟩ := (Option.any_eq_true _ _).mp hany
  obtain ⟨hfalse, htrue⟩ := Bool.and_eq_true_iff.mp htest
  obtain ⟨hcount, hreturn⟩ := slot_calls_return twoCalls_onRun hrun
  obtain ⟨-, hbits, -, -⟩ := hreturn fun k => by
    cases k with
    | false => exact Option.isNone_iff_eq_none.mp hfalse
    | true => exact Option.isNone_iff_eq_none.mp htrue
  exact ⟨s, hrun, hcount, hbits false, hbits true⟩

/-! ## No two regions overlap -/

/-- The VHeader and the index of the slot that a reservation hands out. -/
def BitmapSys.reservedSlot {ι : Type} (s : BitmapSys ι) (a nBytes : ℕ) : Option (ℕ × ℕ) :=
  let nBytes := roundUp nBytes 64
  let b := nBytes / 64 - 1
  (s.selectRun a b nBytes).bind fun x =>
    (NvmMalloc.takeSlot x.2.heap.vheaders (x.2.heap.bin (a, b)) x.1 nBytes).1.map fun i => (x.1, i)

/-- What the threads may rely on in state `s`. -/
structure RegionsApart {ι : Type} [DecidableEq ι] (s : BitmapSys ι) : Prop where
  /-- Two outstanding regions have no byte in common. -/
  apart : ∀ {r i r' i' x x'}, s.slots r i = some x → s.slots r' i' = some x' → (r, i) ≠ (r', i') →
    x.ptr + (s.heap.vheaders r).elemSize ≤ x'.ptr ∨ x'.ptr + (s.heap.vheaders r').elemSize ≤ x.ptr
  /-- A reservation hands out a slot that is not outstanding, or none, and changes no other entry. -/
  fresh : ∀ {a nBytes s'}, bitmapStep s (.reserve a nBytes) = some s' →
    (s.reservedSlot a nBytes = none ∧ s'.slots = s.slots) ∨
    ∃ r i x, s.reservedSlot a nBytes = some (r, i) ∧ s.slots r i = none ∧
      s'.slots = (s.setSlot r i (some x)).slots
  /-- A region lies on its page behind the header. -/
  inPage : ∀ {r i x}, s.slots r i = some x → x.ptr / blockSize * blockSize + headerSize ≤ x.ptr ∧
    x.ptr + (s.heap.vheaders r).elemSize ≤ (x.ptr / blockSize + 1) * blockSize
  /-- The page is in no free page run of any arena. -/
  taken : ∀ {r i x}, s.slots r i = some x →
    ∀ a, ∀ b ∈ (s.trees a).toList, ¬ b.Covers (x.ptr / blockSize)

section

variable {ι : Type} [DecidableEq ι] {s s' : BitmapSys ι}

theorem BitmapSysInv.fresh (hinv : BitmapSysInv s) {a nBytes : ℕ}
    (hstep : bitmapStep s (.reserve a nBytes) = some s') :
    (s.reservedSlot a nBytes = none ∧ s'.slots = s.slots) ∨
    ∃ r i x, s.reservedSlot a nBytes = some (r, i) ∧ s.slots r i = none ∧
      s'.slots = (s.setSlot r i (some x)).slots := by
  simp only [bitmapStep] at hstep
  split at hstep
  case isFalse => cases hstep
  case isTrue hreq =>
    obtain ⟨ha, hn, hsmall⟩ := hreq
    obtain ⟨⟨r, s₁⟩, hsel, rfl⟩ := Option.map_eq_some_iff.mp hstep
    obtain ⟨hinv₁, hslots, hr, -⟩ := hinv.selectRun ha (sizeClass_roundUp hn hsmall) hsel
    simp only [BitmapSys.reservedSlot, hsel, Option.bind_some, BitmapSys.takeSlot, NvmMalloc.takeSlot]
    cases hfirst : firstClear (s₁.heap.vheaders r).bitmap (slotsPerRun (roundUp nBytes 64)) with
    | none => exact .inl ⟨rfl, hslots⟩
    | some i =>
      refine .inr ⟨r, i, ⟨(s₁.heap.vheaders r).nvmRun + headerSize + roundUp nBytes 64 * i,
        .reserved⟩, rfl, ?_, ?_⟩
      · rw [← hslots]
        exact hinv₁.slot_free hr (firstClear_some hfirst).2
      · simp only [BitmapSys.setSlot, hslots]

omit [DecidableEq ι] in
/-- Where an outstanding slot lies. -/
theorem BitmapSysInv.place (hinv : BitmapSysInv s) {r i : ℕ} {x : Slot} (hx : s.slots r i = some x) :
    ∃ p, s.heap.RunAt r p ∧ RunMatches s.heap r p ∧
      x.ptr = 4096 * p + 64 + (s.heap.vheaders r).elemSize * i ∧ x.ptr / 4096 = p ∧
      (s.heap.vheaders r).elemSize * i + (s.heap.vheaders r).elemSize ≤ 4032 := by
  obtain ⟨hr, hi, hptr⟩ := hinv.account hx
  obtain ⟨p, hat, hmatch⟩ := hinv.runs r hr
  obtain ⟨c, -, hbytes⟩ := (hinv.lock.ok p ⟨r, hat⟩).bytes
  rw [hat.2] at hptr
  refine ⟨p, hat, hmatch, hptr, ?_, slot_end_le hi⟩
  rw [hptr]
  exact slot_page (by rw [hmatch.elemSize, hbytes]; omega) hi

/-- **The small regions of all threads are apart.**  In every interleaving of reservations,
activations and frees of a process that was started on an empty heap, two outstanding regions have
no byte in common, and a reservation hands out none of them again; a region lies on its page behind
the header, and the page is in no free page run of any arena. -/
theorem small_regions_apart (hs : Runs BitmapSys.Init bitmapStep (fun _ _ => True) s) :
    RegionsApart s := by
  have hinv : BitmapSysInv s :=
    hs.invariant (fun _ hinit => hinit.inv) fun _ _ _ hinv _ hstep => hinv.step hstep
  constructor
  case apart =>
    intro r i r' i' x x' hx hx' hne
    obtain ⟨p, -, hmatch, hptr, hpage, hend⟩ := hinv.place hx
    obtain ⟨p', -, hmatch', hptr', hpage', hend'⟩ := hinv.place hx'
    by_cases hp : p = p'
    · -- one page has one VHeader, so these are two slots of one run
      subst hp
      obtain rfl : r = r' := hmatch.vdata.symm.trans hmatch'.vdata
      have hi : i ≠ i' := fun hi => hne (by rw [hi])
      rcases Nat.lt_or_gt_of_ne hi with hlt | hlt <;>
        have hmul := Nat.mul_le_mul_left (s.heap.vheaders r).elemSize (Nat.succ_le_of_lt hlt) <;>
        rw [Nat.mul_succ] at hmul <;> omega
    · omega
  case fresh => exact hinv.fresh
  case inPage =>
    intro r i x hx
    obtain ⟨p, -, -, hptr, hpage, hend⟩ := hinv.place hx
    simp only [blockSize, headerSize]
    omega
  case taken =>
    intro r i x hx a b hb hcovers
    obtain ⟨p, hat, -, -, hpage, -⟩ := hinv.place hx
    have hrun : OwnsPage s.trees (fun p => ∃ r, s.heap.RunAt r p) .run (x.ptr / 4096) := ⟨r, hpage ▸ hat⟩
    exact absurd (hinv.pages.exclusive hrun (show OwnsPage _ _ (.block a b) _ from ⟨hb, hcovers⟩))
      (by simp)

end

/-- Two slots of one run, and a third that the next reservation hands out. -/
theorem small_regions_apart_two : ∃ s : BitmapSys Bool, ∃ x x',
    Runs BitmapSys.Init bitmapStep (fun _ _ => True) s ∧ s.slots 0 0 = some x ∧ s.slots 0 1 = some x' ∧
      s.reservedSlot 0 100 = some (0, 2) ∧ RegionsApart s := by
  have hstart : Runs BitmapSys.Init bitmapStep (fun _ _ => True) freshProcess :=
    .start ⟨rfl, rfl, fun _ => rfl, fun _ => rfl, rfl, fun _ _ => rfl, fun _ => rfl⟩
  have hrun : ((runActions bitmapStep freshProcess [.reserve 0 100, .reserve 0 100]).any fun s =>
      (s.slots 0 0).isSome && (s.slots 0 1).isSome && decide (s.reservedSlot 0 100 = some (0, 2))) =
      true := by
    decide +kernel
  obtain ⟨s, hs, htest⟩ := hstart.exists_of_actions hrun
  obtain ⟨htest, hnext⟩ := Bool.and_eq_true_iff.mp htest
  obtain ⟨h0, h1⟩ := Bool.and_eq_true_iff.mp htest
  obtain ⟨x, hx⟩ := Option.isSome_iff_exists.mp h0
  obtain ⟨x', hx'⟩ := Option.isSome_iff_exists.mp h1
  exact ⟨s, x, x', hs, hx, hx', of_decide_eq_true hnext, small_regions_apart hs⟩

end NvmMalloc
