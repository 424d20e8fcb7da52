import NvmMalloc.LinkSpec
import NvmMalloc.RunLock

/-!
# Concurrent activations and frees of slots

Reference: `src/nvm_malloc.c` (`nvm_activate`, small regions), `src/arena.c` (`arena_free`, small
regions, `arena_create_run_header`), `src/types.h` (`nvm_run_header_s`).

The bitmap of a run is changed by a plain load and store of one of its bytes, and eight slots share a
byte.  What keeps the updates apart is the compare-and-swap on the state byte: an operation that got in
moves the state to other values, and only its last store to the state lets the next one in.

The module follows any number of calls, one header access after the other.  The sections of `arena_free`
under the mutex of the bin are taken without the mutex where they access NVM, which only adds
interleavings, and the last one, on volatile data only, is one step.
-/

namespace NvmMalloc

open Interleaving

/-! ## The model -/

/-- `nvm_run_header_t`; `bitmap` holds the bytes of the bitmap and `on i` is `(on[i].ptr,
on[i].value)`. -/
structure RunFields where
  state : ℕ
  nBytes : ℕ
  arenaId : ℕ
  vdata : ℕ
  version : ℕ
  bitIdx : ℕ
  on : ℕ → ℕ × ℕ
  bitmap : ℕ → ℕ

/-- Bit `i` of the bitmap. -/
def RunFields.bit (h : RunFields) (i : ℕ) : Bool := (h.bitmap (i / 8)).testBit (i % 8)

/-- The header after a store to byte `k` of the bitmap. -/
def RunFields.setByte (h : RunFields) (k v : ℕ) : RunFields :=
  { h with bitmap := Function.update h.bitmap k v }

/-- The header after a store to the redo record. -/
def RunFields.apply (h : RunFields) : RecordStore → RunFields
  | .bitIdx v => { h with bitIdx := v }
  | .onPtr i v => { h with on := Function.update h.on i (v, (h.on i).2) }
  | .onValue i v => { h with on := Function.update h.on i ((h.on i).1, v) }

/-- The run headers by their pages, the VHeaders, of which the first `nVheaders` are allocated, and the
bins. -/
structure SlotHeap where
  header : ℕ → RunFields
  vheaders : ℕ → ArenaRun
  nVheaders : ℕ
  bin : ℕ × ℕ → ArenaBin
  currentVersion : ℕ

/-- A call on a slot: its pointer, and the links with their relative targets. -/
structure SlotCall where
  kind : SlotOp
  ptr : ℕ
  link1 : Option (ℕ × ℕ)
  link2 : Option (ℕ × ℕ)

/-- The page of the header that a call looks at. -/
def SlotCall.page (c : SlotCall) : ℕ := c.ptr / blockSize

/-- The distance of the pointer from the first slot. -/
def SlotCall.offset (c : SlotCall) : ℕ := c.ptr - (c.page * blockSize + headerSize)

/-- The call as an operation on slot `i` of its run. -/
def SlotCall.op (c : SlotCall) (i : ℕ) : RunOp := ⟨c.kind, i, c.link1, c.link2⟩

/-- The stores to the redo record, in their order. -/
def SlotCall.record (c : SlotCall) (runIdx : ℕ) : List RecordStore := (c.op runIdx).record

/-- The byte of the bitmap with the bit of the slot changed. -/
def SlotCall.newByte (c : SlotCall) (runIdx b : ℕ) : ℕ :=
  match c.kind with
  | .activate => (b ||| 1 <<< (runIdx % 8)) % 256
  | .free => (b &&& (255 ^^^ 1 <<< (runIdx % 8))) % 256

/-- The local variables `run_idx` and, in `arena_free`, `run`. -/
structure SlotVars where
  runIdx : ℕ
  run : Option ℕ

/-- The next access of a call.  `lost` is a call that faulted or took the branch of another usage. -/
inductive SlotPc where
  | loadUsage
  | loadBytes
  | casActivate (runIdx : ℕ)
  | casFree
  | loadVdata
  | loadVersion (run : ℕ)
  | compareVdata (run tmpRun : ℕ)
  | storeVdata (tmpRun : ℕ)
  | storeVersion
  | reloadVdata
  | loadElemSize (run : ℕ)
  | record (v : SlotVars) (rest : List RecordStore)
  | loadByte (v : SlotVars)
  | storeByte (v : SlotVars) (b : ℕ)
  | release (v : SlotVars)
  | clear (v : SlotVars) (rest : List RecordStore)
  | done
  | lost

section

variable (c : SlotCall) (s : SlotHeap)

/-- The heap with another header for the run of the call. -/
def SlotHeap.setHeader (h : RunFields) : SlotHeap :=
  { s with header := Function.update s.header c.page h }

/-- `arena_create_run_header`, as `arenaCreateRunHeader` does it. -/
def SlotHeap.createRunHeader : SlotHeap :=
  let h := s.header c.page
  let run : ArenaRun :=
    { nvmRun := c.page * blockSize
      bin := (h.arenaId, h.nBytes / 64 - 1)
      elemSize := h.nBytes
      nMax := slotsPerRun h.nBytes
      nFree := clearBits h.bit (slotsPerRun h.nBytes)
      bitmap := h.bit
      next := none }
  { s with
    vheaders := Function.update s.vheaders s.nVheaders run
    nVheaders := s.nVheaders + 1 }

/-- The last section of `arena_free`: mark the slot as free in volatile memory. -/
def SlotHeap.release (run runIdx : ℕ) : SlotHeap :=
  let ab := (s.vheaders run).bin
  let r := releaseSlot s.vheaders (s.bin ab) run runIdx
  { s with vheaders := r.1, bin := Function.update s.bin ab r.2 }

/-- The next step of a call; only a compare-and-swap waits. -/
def slotStep : SlotPc → Option (SlotHeap × SlotPc)
  | .loadUsage =>
    if c.ptr % chunkSize = headerSize then some (s, .lost)
    else
      match c.kind with
      | .activate =>
        if getUsage (s.header c.page).state = usageFree then some (s, .lost)
        else some (s, .loadBytes)
      | .free =>
        if getUsage (s.header c.page).state = usageRun then some (s, .casFree) else some (s, .lost)
  | .loadBytes =>
    if (s.header c.page).nBytes = 0 then some (s, .lost)
    else some (s, .casActivate (c.offset / (s.header c.page).nBytes % 2 ^ 16))
  | .casActivate runIdx =>
    if (s.header c.page).state = usageRun + stateInitialized then
      some (s.setHeader c { s.header c.page with state := usageRun + statePreactivate },
        .record ⟨runIdx, none⟩ (c.record runIdx))
    else
      none
  | .casFree =>
    if (s.header c.page).state = usageRun + stateInitialized then
      some (s.setHeader c { s.header c.page with state := usageRun + statePrefree }, .loadVdata)
    else
      none
  | .loadVdata => some (s, .loadVersion (s.header c.page).vdata)
  | .loadVersion run =>
    if (s.header c.page).version < s.currentVersion then
      if (s.header c.page).arenaId < initialArenas ∧ 0 < (s.header c.page).nBytes / 64 ∧
          (s.header c.page).nBytes / 64 ≤ 31 then
        some (s.createRunHeader c, .compareVdata run s.nVheaders)
      else
        some (s, .lost)
    else
      some (s, .loadElemSize run)
  | .compareVdata run tmpRun =>
    -- after locking, make sure nobody else has created a VHeader yet
    if run = (s.header c.page).vdata then some (s, .storeVdata tmpRun) else some (s, .reloadVdata)
  | .storeVdata tmpRun =>
    some (s.setHeader c { s.header c.page with vdata := tmpRun }, .storeVersion)
  | .storeVersion =>
    some (s.setHeader c { s.header c.page with version := s.currentVersion % 2 ^ 32 }, .reloadVdata)
  | .reloadVdata => some (s, .loadElemSize (s.header c.page).vdata)
  | .loadElemSize run =>
    if (s.vheaders run).elemSize = 0 then some (s, .lost)
    else
      some (s, .record ⟨c.offset / (s.vheaders run).elemSize, some run⟩
        (c.record (c.offset / (s.vheaders run).elemSize)))
  | .record v (x :: rest) => some (s.setHeader c ((s.header c.page).apply x), .record v rest)
  | .record v [] =>
    if c.link1.isSome then
      some (s.setHeader c { s.header c.page with state := usageRun + c.kind.committed }, .loadByte v)
    else
      some (s, .loadByte v)
  | .loadByte v => some (s, .storeByte v ((s.header c.page).bitmap (v.runIdx / 8)))
  | .storeByte v b =>
    some (s.setHeader c ((s.header c.page).setByte (v.runIdx / 8) (c.newByte v.runIdx b)), .release v)
  | .release v =>
    some (s.setHeader c { s.header c.page with state := usageRun + stateInitialized },
      .clear v clearRecord)
  | .clear v (x :: rest) => some (s.setHeader c ((s.header c.page).apply x), .clear v rest)
  | .clear v [] =>
    match v.run with
    | none => some (s, .done)
    | some run => some (s.release run v.runIdx, .done)
  | .done => none
  | .lost => none

end

/-! ## The calls as operations on a run -/

/-- What `RunHeader` keeps of a header. -/
def RunFields.runHeader (h : RunFields) : RunHeader := ⟨h.state - usageRun, h.bitIdx, h.on, h.bit⟩

/-- How far the operation of a call has come. -/
def SlotPc.phase (op : RunOp) : SlotPc → RunPhase
  | .loadUsage | .loadBytes | .casActivate _ | .casFree | .lost => .waiting
  | .loadVdata | .loadVersion _ | .compareVdata _ _ | .storeVdata _ | .storeVersion | .reloadVdata
  | .loadElemSize _ => .recording op.record
  | .record _ rest => .recording rest
  | .loadByte _ | .storeByte _ _ => if op.link1.isSome then .marking else .recording []
  | .release _ => .releasing
  | .clear _ rest => .clearing rest
  | .done => .clearing []

theorem RunFields.runHeader_apply (h : RunFields) (x : RecordStore) :
    (h.apply x).runHeader = h.runHeader.apply x := by
  cases x <;> rfl

theorem RunFields.runHeader_state (h : RunFields) (st : ℕ) :
    { h with state := usageRun + st }.runHeader = { h.runHeader with state := st } := by
  simp only [RunFields.runHeader, Nat.add_sub_cancel_left]
  rfl

theorem RunFields.state_iff (h : RunFields) :
    h.state = usageRun + stateInitialized ↔ h.runHeader.state = stateInitialized := by
  simp only [RunFields.runHeader, usageRun, stateInitialized]
  omega

/-! ## What a call knows -/

/-- The call got past its compare-and-swap and has not let the next one in. -/
def SlotPc.Holds : SlotPc → Prop
  | .loadVdata | .loadVersion _ | .compareVdata _ _ | .storeVdata _ | .storeVersion | .reloadVdata
  | .loadElemSize _ | .record _ _ | .loadByte _ | .storeByte _ _ | .release _ => True
  | _ => False

/-- The call has stored its byte of the bitmap. -/
def SlotPc.Marked : SlotPc → Prop
  | .release _ | .clear _ _ | .done => True
  | _ => False

/-- A run header on page `p` for slots of a size class, and its VHeader if it has one of this process. -/
structure RunFields.Ok (s : SlotHeap) (p : ℕ) : Prop where
  page : p % 1024 ≠ 0
  arena : (s.header p).arenaId < initialArenas
  bytes : ∃ b < 31, (s.header p).nBytes = 64 * (b + 1)
  usage : getUsage (s.header p).state = usageRun
  vdata : ¬ (s.header p).version < s.currentVersion → (s.header p).vdata < s.nVheaders ∧
    (s.vheaders (s.header p).vdata).elemSize = (s.header p).nBytes

/-- The call is on slot `i` of page `p`. -/
structure SlotCall.On (c : SlotCall) (s : SlotHeap) (p i : ℕ) : Prop where
  lt : i < slotsPerRun (s.header p).nBytes
  ptr : c.ptr = 4096 * p + 64 + (s.header p).nBytes * i

/-- `run` is the address of a VHeader for the slots of page `p`. -/
def VheaderFor (s : SlotHeap) (p run : ℕ) : Prop :=
  run < s.nVheaders ∧ (s.vheaders run).elemSize = (s.header p).nBytes

/-- The local variables of a call on slot `i`. -/
structure SlotVars.Ok (c : SlotCall) (s : SlotHeap) (i : ℕ) (v : SlotVars) : Prop where
  runIdx : v.runIdx = i
  run : v.run = none ∧ c.kind = .activate ∨
    ∃ run, v.run = some run ∧ c.kind = .free ∧ VheaderFor s c.page run

/-- What holds when a call on slot `i` is at its program counter. -/
def PcOk (c : SlotCall) (s : SlotHeap) (i : ℕ) : SlotPc → Prop
  | .loadUsage | .done => True
  | .loadBytes => c.kind = .activate
  | .casActivate runIdx => c.kind = .activate ∧ runIdx = i
  | .casFree | .loadVdata => c.kind = .free
  | .loadVersion run => c.kind = .free ∧ run = (s.header c.page).vdata
  | .compareVdata run tmpRun =>
    c.kind = .free ∧ run = (s.header c.page).vdata ∧ VheaderFor s c.page tmpRun
  | .storeVdata tmpRun => c.kind = .free ∧ VheaderFor s c.page tmpRun
  | .storeVersion | .reloadVdata => c.kind = .free ∧ VheaderFor s c.page (s.header c.page).vdata
  | .loadElemSize run => c.kind = .free ∧ VheaderFor s c.page run
  | .record v _ | .loadByte v | .release v | .clear v _ => v.Ok c s i
  | .storeByte v b => v.Ok c s i ∧ b = (s.header c.page).bitmap (v.runIdx / 8)
  | .lost => False

theorem SlotPc.phase_holds (op : RunOp) (pc : SlotPc) : (pc.phase op).Holds ↔ pc.Holds := by
  cases pc <;> simp only [SlotPc.phase, SlotPc.Holds] <;> (try split) <;> simp [RunPhase.Holds]

theorem SlotPc.phase_marked (op : RunOp) (pc : SlotPc) : (pc.phase op).Marked ↔ pc.Marked := by
  cases pc <;> simp only [SlotPc.phase, SlotPc.Marked] <;> (try split) <;> simp [RunPhase.Marked]

section

variable {c : SlotCall} {s s' : SlotHeap} {p i : ℕ} {pc pc' : SlotPc}

theorem SlotCall.On.page_eq (h : c.On s p i) (hok : RunFields.Ok s p) : c.page = p := by
  obtain ⟨b, -, hb⟩ := hok.bytes
  unfold SlotCall.page
  rw [h.ptr]
  exact slot_page (by omega) h.lt

theorem SlotCall.On.offset_eq (h : c.On s p i) (hok : RunFields.Ok s p) :
    c.offset = (s.header p).nBytes * i := by
  unfold SlotCall.offset
  rw [h.page_eq hok, h.ptr]
  simp only [blockSize, headerSize]
  omega

theorem RunFields.Ok.slots_le (h : RunFields.Ok s p) : slotsPerRun (s.header p).nBytes ≤ 63 := by
  obtain ⟨b, -, hb⟩ := h.bytes
  exact slotsPerRun_le (by omega)

/-- A call goes on without a change to what `RunHeader` keeps, or its operation takes an action. -/
def RunStutters (op : RunOp) (h : RunHeader) (pc : SlotPc) (h' : RunHeader) (pc' : SlotPc) : Prop :=
  h' = h ∧ pc'.phase op = pc.phase op ∨ RunMove op h (pc.phase op) h' (pc'.phase op)

/-- What a step of a call on slot `i` leaves. -/
structure StepFacts (c : SlotCall) (s : SlotHeap) (i : ℕ) (pc : SlotPc) (s' : SlotHeap) (pc' : SlotPc) :
    Prop where
  frame : ∀ q, q ≠ c.page → s'.header q = s.header q
  nBytes : (s'.header c.page).nBytes = (s.header c.page).nBytes
  currentVersion : s'.currentVersion = s.currentVersion
  nVheaders : s.nVheaders ≤ s'.nVheaders
  elemSize : ∀ r < s.nVheaders, (s'.vheaders r).elemSize = (s.vheaders r).elemSize
  ok : RunFields.Ok s' c.page
  pcOk : PcOk c s' i pc'
  move : RunStutters (c.op i) (s.header c.page).runHeader pc (s'.header c.page).runHeader pc'
  reads : ¬ pc.Holds → (s'.header c.page).vdata = (s.header c.page).vdata ∧
    (s'.header c.page).bitmap = (s.header c.page).bitmap

@[simp] theorem setHeader_header (h : RunFields) (q : ℕ) :
    (s.setHeader c h).header q = if q = c.page then h else s.header q := by
  unfold SlotHeap.setHeader
  simp only [Function.update_apply]

@[simp] theorem setHeader_vheaders (h : RunFields) : (s.setHeader c h).vheaders = s.vheaders := rfl

@[simp] theorem setHeader_nVheaders (h : RunFields) : (s.setHeader c h).nVheaders = s.nVheaders := rfl

@[simp] theorem setHeader_currentVersion (h : RunFields) :
    (s.setHeader c h).currentVersion = s.currentVersion := rfl

/-! What follows for the bitmap: the bit of the slot changes when the byte is stored, and no other bit
ever. -/

theorem StepFacts.bit_cases (hf : StepFacts c s i pc s' pc') :
    (pc'.Marked ↔ pc.Marked) ∧ (s'.header c.page).bit = (s.header c.page).bit ∨
      ¬ pc.Marked ∧ pc'.Marked ∧ ∀ j, (s'.header c.page).bit j =
        if j = i then decide (c.kind = .activate) else (s.header c.page).bit j := by
  simp only [← pc.phase_marked (c.op i), ← pc'.phase_marked (c.op i)]
  rcases hf.move with ⟨hheader, hphase⟩ | hmove
  · rw [hphase]
    exact .inl ⟨.rfl, congrArg RunHeader.bitmap hheader⟩
  · refine hmove.bitmap.imp id (And.imp id (And.imp id fun hbit j => ?_))
    exact (congrFun hbit j).trans (Function.update_apply ..)

theorem StepFacts.keeps (hf : StepFacts c s i pc s' pc') (hiff : pc.Marked ↔ pc'.Marked) :
    (s'.header c.page).bit = (s.header c.page).bit :=
  hf.bit_cases.elim And.right fun h => absurd (hiff.mpr h.2.1) h.1

theorem StepFacts.marks (hf : StepFacts c s i pc s' pc') (hnot : ¬ pc.Marked) (hyes : pc'.Marked)
    (j : ℕ) : (s'.header c.page).bit j =
      if j = i then decide (c.kind = .activate) else (s.header c.page).bit j :=
  hf.bit_cases.elim (fun h => absurd (h.1.mp hyes) hnot) fun h => h.2.2 j

theorem StepFacts.mono (hf : StepFacts c s i pc s' pc') (hm : pc.Marked) : pc'.Marked :=
  hf.bit_cases.elim (fun h => h.1.mpr hm) fun h => h.2.1

/-- The state of a run is a lock. -/
theorem StepFacts.lockStep (hf : StepFacts c s i pc s' pc') :
    LockStep pc.Holds ((s.header c.page).state = usageRun + stateInitialized)
      pc'.Holds ((s'.header c.page).state = usageRun + stateInitialized) := by
  simp only [RunFields.state_iff, ← SlotPc.phase_holds (c.op i)]
  rcases hf.move with ⟨hheader, hphase⟩ | hmove
  · rw [hheader, hphase]
    exact ⟨fun hnot hyes => absurd hyes hnot, fun _ _ => id, fun hyes hnot => absurd hyes hnot,
      fun _ _ => .rfl⟩
  · exact hmove.lockStep

/-- A step that stores to the header. -/
theorem StepFacts.store {h : RunFields} (hok : RunFields.Ok s c.page)
    (hpc : PcOk c (s.setHeader c h) i pc')
    (hbytes : h.nBytes = (s.header c.page).nBytes) (harena : h.arenaId = (s.header c.page).arenaId)
    (husage : getUsage h.state = usageRun)
    (hvdata : ¬ h.version < s.currentVersion → VheaderFor s c.page h.vdata)
    (hmove : RunStutters (c.op i) (s.header c.page).runHeader pc h.runHeader pc')
    (hreads : ¬ pc.Holds → h.vdata = (s.header c.page).vdata ∧ h.bitmap = (s.header c.page).bitmap) :
    StepFacts c s i pc (s.setHeader c h) pc' where
  frame q hq := by rw [setHeader_header, if_neg hq]
  nBytes := by rw [setHeader_header, if_pos rfl, hbytes]
  currentVersion := rfl
  nVheaders := le_rfl
  elemSize _ _ := rfl
  ok := by
    obtain ⟨b, hb, hclass⟩ := hok.bytes
    refine ⟨hok.page, ?_, ⟨b, hb, ?_⟩, ?_, ?_⟩ <;> rw [setHeader_header, if_pos rfl]
    · rw [harena]
      exact hok.arena
    · rw [hbytes, hclass]
    · exact husage
    · intro hversion
      obtain ⟨hlt, helem⟩ := hvdata hversion
      exact ⟨hlt, helem.trans hbytes.symm⟩
  pcOk := hpc
  move := by rwa [setHeader_header, if_pos rfl]
  reads := by rwa [setHeader_header, if_pos rfl]

@[simp] theorem RunFields.apply_facts (h : RunFields) (x : RecordStore) :
    (h.apply x).state = h.state ∧ (h.apply x).nBytes = h.nBytes ∧ (h.apply x).arenaId = h.arenaId ∧
      (h.apply x).vdata = h.vdata ∧ (h.apply x).version = h.version ∧ (h.apply x).bitmap = h.bitmap := by
  cases x <;> exact ⟨rfl, rfl, rfl, rfl, rfl, rfl⟩

/-- The local variables stay right while the VHeaders and the size of the slots do. -/
theorem VheaderFor.congr {run : ℕ} (h : VheaderFor s p run) (hn : s.nVheaders ≤ s'.nVheaders)
    (helem : ∀ r < s.nVheaders, (s'.vheaders r).elemSize = (s.vheaders r).elemSize)
    (hbytes : (s'.header p).nBytes = (s.header p).nBytes) : VheaderFor s' p run :=
  ⟨lt_of_lt_of_le h.1 hn, by rw [helem run h.1, hbytes, h.2]⟩

theorem SlotVars.Ok.congr {v : SlotVars} (h : v.Ok c s i) (hn : s.nVheaders ≤ s'.nVheaders)
    (helem : ∀ r < s.nVheaders, (s'.vheaders r).elemSize = (s.vheaders r).elemSize)
    (hbytes : (s'.header c.page).nBytes = (s.header c.page).nBytes) : v.Ok c s' i := by
  refine ⟨h.runIdx, ?_⟩
  rcases h.run with hact | ⟨run, hrun, hfree, hfor⟩
  · exact Or.inl hact
  · exact Or.inr ⟨run, hrun, hfree, hfor.congr hn helem hbytes⟩

/-- What another call knows is kept by a step that leaves alone what a holder reads. -/
theorem PcOk.congr (h : PcOk c s i pc) (hn : s.nVheaders ≤ s'.nVheaders)
    (helem : ∀ r < s.nVheaders, (s'.vheaders r).elemSize = (s.vheaders r).elemSize)
    (hbytes : (s'.header c.page).nBytes = (s.header c.page).nBytes)
    (hheld : pc.Holds → (s'.header c.page).vdata = (s.header c.page).vdata ∧
      (s'.header c.page).bitmap = (s.header c.page).bitmap) : PcOk c s' i pc := by
  cases pc with
  | loadUsage | loadBytes | casActivate | casFree | loadVdata | done | lost => exact h
  | loadVersion run =>
    unfold PcOk
    rw [(hheld trivial).1]
    exact h
  | compareVdata run tmpRun =>
    refine ⟨h.1, ?_, h.2.2.congr hn helem hbytes⟩
    rw [(hheld trivial).1]
    exact h.2.1
  | storeVdata tmpRun | loadElemSize run => exact ⟨h.1, h.2.congr hn helem hbytes⟩
  | storeVersion | reloadVdata =>
    refine ⟨h.1, ?_⟩
    rw [(hheld trivial).1]
    exact h.2.congr hn helem hbytes
  | record v rest | loadByte v | release v | clear v rest =>
    exact SlotVars.Ok.congr (v := v) h hn helem hbytes
  | storeByte v b =>
    refine ⟨h.1.congr hn helem hbytes, ?_⟩
    rw [(hheld trivial).2]
    exact h.2

/-- The pointer of a small region is not taken for that of a huge one. -/
theorem SlotCall.On.not_huge (h : c.On s p i) (hok : RunFields.Ok s p) :
    c.ptr % chunkSize ≠ headerSize := by
  have hend := slot_end_le h.lt
  have hpage := hok.page
  rw [h.ptr]
  simp only [chunkSize, headerSize]
  omega

/-- The bits of the bitmap after the store of a byte that was loaded before. -/
theorem bit_newByte {h : RunFields} {runIdx : ℕ} (j : ℕ) :
    (h.setByte (runIdx / 8) (c.newByte runIdx (h.bitmap (runIdx / 8)))).bit j =
      if j = runIdx then decide (c.kind = .activate) else h.bit j := by
  unfold RunFields.bit RunFields.setByte
  simp only [Function.update_apply]
  by_cases hbyte : j / 8 = runIdx / 8
  · rw [if_pos hbyte, hbyte]
    unfold SlotCall.newByte
    cases c.kind with
    | activate =>
      simp only [decide_true]
      rw [show (256 : ℕ) = 256 ^ 1 from rfl, testBit_setBit _ _ (by omega)]
      by_cases hj : j = runIdx
      · simp [hj]
      · rw [if_neg hj, decide_eq_false (by omega), Bool.or_false]
    | free =>
      simp only [reduceCtorEq, decide_false]
      rw [show (256 : ℕ) = 256 ^ 1 from rfl, testBit_clearBit _ _ (by omega)]
      by_cases hj : j = runIdx
      · simp [hj]
      · rw [if_neg hj, decide_eq_false (by omega), Bool.not_false, Bool.and_true]
  · rw [if_neg hbyte, if_neg (by rintro rfl; exact hbyte rfl)]

/-- `arena_create_run_header` makes a VHeader for the run. -/
theorem vheaderFor_created : VheaderFor (s.createRunHeader c) c.page s.nVheaders := by
  refine ⟨Nat.lt_succ_self _, ?_⟩
  unfold SlotHeap.createRunHeader
  simp only [Function.update_self]

theorem createRunHeader_elemSize {r : ℕ} (hr : r < s.nVheaders) :
    ((s.createRunHeader c).vheaders r).elemSize = (s.vheaders r).elemSize := by
  unfold SlotHeap.createRunHeader
  simp only
  rw [Function.update_of_ne (by omega)]

theorem release_elemSize {run runIdx r : ℕ} :
    ((s.release run runIdx).vheaders r).elemSize = (s.vheaders r).elemSize := by
  unfold SlotHeap.release releaseSlot
  simp only
  split <;> simp only [Function.update_apply] <;> split <;> simp_all

/-- A step that changes volatile data only. -/
theorem StepFacts.volatile (hok : RunFields.Ok s c.page) (hheader : s'.header = s.header)
    (hversion : s'.currentVersion = s.currentVersion) (hn : s.nVheaders ≤ s'.nVheaders)
    (helem : ∀ r < s.nVheaders, (s'.vheaders r).elemSize = (s.vheaders r).elemSize)
    (hpc : PcOk c s' i pc') (hphase : pc'.phase (c.op i) = pc.phase (c.op i)) :
    StepFacts c s i pc s' pc' where
  frame _ _ := by rw [hheader]
  nBytes := by rw [hheader]
  currentVersion := hversion
  nVheaders := hn
  elemSize := helem
  ok := by
    refine ⟨hok.page, ?_, ?_, ?_, fun hstale => ?_⟩ <;> rw [hheader]
    · exact hok.arena
    · exact hok.bytes
    · exact hok.usage
    · rw [hheader, hversion] at hstale
      obtain ⟨hlt, hsize⟩ := hok.vdata hstale
      exact ⟨lt_of_lt_of_le hlt hn, by rw [helem _ hlt, hsize]⟩
  pcOk := hpc
  move := .inl ⟨by rw [hheader], hphase⟩
  reads _ := by rw [hheader]; exact ⟨rfl, rfl⟩

/-- A step that does not write. -/
theorem StepFacts.silent (hok : RunFields.Ok s c.page) (hpc : PcOk c s i pc')
    (hphase : pc'.phase (c.op i) = pc.phase (c.op i)) : StepFacts c s i pc s pc' :=
  .volatile hok rfl rfl le_rfl (fun _ _ => rfl) hpc hphase

/-- A store to the redo record. -/
theorem StepFacts.apply {x : RecordStore} (hok : RunFields.Ok s c.page)
    (hpc : PcOk c (s.setHeader c ((s.header c.page).apply x)) i pc')
    (hmove : ∀ h, RunMove (c.op i) h (pc.phase (c.op i)) (h.apply x) (pc'.phase (c.op i))) :
    StepFacts c s i pc (s.setHeader c ((s.header c.page).apply x)) pc' := by
  obtain ⟨hstate, hbytes, harena, hvdata, hversion, hbitmap⟩ := (s.header c.page).apply_facts x
  refine .store hok hpc hbytes harena ?_ ?_ (.inr ?_) fun _ => ⟨hvdata, hbitmap⟩
  · rw [hstate]
    exact hok.usage
  · rw [hversion, hvdata]
    exact hok.vdata
  · rw [RunFields.runHeader_apply]
    exact hmove _

/-- A store to the state. -/
theorem StepFacts.storeState {st : ℕ} (hok : RunFields.Ok s c.page)
    (hpc : PcOk c (s.setHeader c { s.header c.page with state := usageRun + st }) i pc')
    (husage : getUsage (usageRun + st) = usageRun)
    (hmove : RunMove (c.op i) (s.header c.page).runHeader (pc.phase (c.op i))
      { (s.header c.page).runHeader with state := st } (pc'.phase (c.op i))) :
    StepFacts c s i pc (s.setHeader c { s.header c.page with state := usageRun + st }) pc' := by
  refine .store hok hpc rfl rfl husage hok.vdata (.inr ?_) fun _ => ⟨rfl, rfl⟩
  rw [RunFields.runHeader_state]
  exact hmove

/-- Local variables after a store to the header. -/
theorem SlotVars.Ok.setHeader {v : SlotVars} {h : RunFields} (hv : v.Ok c s i)
    (hbytes : h.nBytes = (s.header c.page).nBytes) : v.Ok c (s.setHeader c h) i :=
  hv.congr le_rfl (fun _ _ => rfl) (by rw [setHeader_header, if_pos rfl, hbytes])

theorem VheaderFor.setHeader {run : ℕ} {h : RunFields} (hrun : VheaderFor s c.page run)
    (hbytes : h.nBytes = (s.header c.page).nBytes) : VheaderFor (s.setHeader c h) c.page run :=
  hrun.congr le_rfl (fun _ _ => rfl) (by rw [setHeader_header, if_pos rfl, hbytes])

/-- The store of the byte: of the bitmap it changes the bit of the slot only. -/
theorem StepFacts.mark {v : SlotVars} (hok : RunFields.Ok s c.page) (hv : v.Ok c s i) :
    StepFacts c s i (.storeByte v ((s.header c.page).bitmap (v.runIdx / 8)))
      (s.setHeader c ((s.header c.page).setByte (v.runIdx / 8)
        (c.newByte v.runIdx ((s.header c.page).bitmap (v.runIdx / 8))))) (.release v) := by
  refine .store hok (hv.setHeader rfl) rfl rfl hok.usage hok.vdata (.inr ?_)
    fun hnot => absurd trivial hnot
  have hbits : ((s.header c.page).setByte (v.runIdx / 8)
      (c.newByte v.runIdx ((s.header c.page).bitmap (v.runIdx / 8)))).runHeader =
      (c.op i).mark (s.header c.page).runHeader := by
    unfold RunFields.runHeader RunOp.mark
    congr 1
    funext j
    rw [bit_newByte, hv.runIdx, Function.update_apply]
    rfl
  rw [hbits, SlotPc.phase, SlotPc.phase]
  split
  · exact .mark
  · exact .markUnlinked ‹_›

/-- Both ways to compute the index of the slot give back the slot. -/
theorem SlotCall.On.index_eq (h : c.On s p i) (hok : RunFields.Ok s p) :
    c.offset / (s.header p).nBytes = i := by
  obtain ⟨b, -, hb⟩ := hok.bytes
  rw [h.offset_eq hok, Nat.mul_div_cancel_left _ (by omega)]

/-- **What a step of a call does.** -/
theorem slotStep_facts (hok : RunFields.Ok s c.page) (hon : c.On s c.page i) (hpc : PcOk c s i pc)
    (hstep : slotStep c s pc = some (s', pc')) : StepFacts c s i pc s' pc' := by
  have hslots := hok.slots_le
  have hlt := hon.lt
  obtain ⟨b, hb, hbytes⟩ := hok.bytes
  cases pc with
  | loadUsage =>
    simp only [slotStep, if_neg (hon.not_huge hok)] at hstep
    cases hkind : c.kind with
    | activate =>
      simp only [hkind, hok.usage] at hstep
      rw [if_neg (by decide)] at hstep
      cases hstep
      exact .silent hok hkind rfl
    | free =>
      simp only [hkind, if_pos hok.usage] at hstep
      cases hstep
      exact .silent hok hkind rfl
  | loadBytes =>
    simp only [slotStep] at hstep
    rw [if_neg (by omega), hon.index_eq hok, Nat.mod_eq_of_lt (by omega)] at hstep
    cases hstep
    exact .silent hok ⟨hpc, rfl⟩ rfl
  | casActivate runIdx =>
    simp only [slotStep] at hstep
    split at hstep
    · rename_i hfree
      cases hstep
      obtain ⟨hkind, rfl⟩ := hpc
      refine .storeState hok (SlotVars.Ok.setHeader ⟨rfl, Or.inl ⟨rfl, hkind⟩⟩ rfl) (by decide) ?_
      rw [show statePreactivate = (c.op runIdx).kind.pre by rw [SlotCall.op, hkind]; rfl]
      exact .acquire (RunFields.state_iff _ |>.mp hfree)
    · exact absurd hstep (by simp)
  | casFree =>
    simp only [slotStep] at hstep
    split at hstep
    · rename_i hfree
      cases hstep
      refine .storeState hok hpc (by decide) ?_
      rw [show statePrefree = (c.op i).kind.pre by rw [SlotCall.op, show c.kind = .free from hpc]; rfl]
      exact .acquire (RunFields.state_iff _ |>.mp hfree)
    · exact absurd hstep (by simp)
  | loadVdata =>
    cases hstep
    exact .silent hok ⟨hpc, rfl⟩ rfl
  | loadVersion run =>
    simp only [slotStep] at hstep
    split at hstep
    · rw [if_pos ⟨hok.arena, by omega, by omega⟩] at hstep
      cases hstep
      exact .volatile hok rfl rfl (Nat.le_succ _) (fun _ hr => createRunHeader_elemSize hr)
        ⟨hpc.1, hpc.2, vheaderFor_created⟩ rfl
    · rename_i hcurrent
      cases hstep
      refine .silent hok ⟨hpc.1, ?_⟩ rfl
      rw [hpc.2]
      exact hok.vdata hcurrent
  | compareVdata run tmpRun =>
    simp only [slotStep, if_pos hpc.2.1] at hstep
    cases hstep
    exact .silent hok ⟨hpc.1, hpc.2.2⟩ rfl
  | storeVdata tmpRun =>
    cases hstep
    refine .store hok ⟨hpc.1, ?_⟩ rfl rfl hok.usage (fun _ => hpc.2) (.inl ⟨rfl, rfl⟩)
      fun hnot => absurd trivial hnot
    rw [setHeader_header, if_pos rfl]
    exact hpc.2.setHeader rfl
  | storeVersion =>
    cases hstep
    refine .store hok ⟨hpc.1, ?_⟩ rfl rfl hok.usage (fun _ => hpc.2) (.inl ⟨rfl, rfl⟩)
      fun hnot => absurd trivial hnot
    rw [setHeader_header, if_pos rfl]
    exact hpc.2.setHeader rfl
  | reloadVdata =>
    cases hstep
    exact .silent hok hpc rfl
  | loadElemSize run =>
    obtain ⟨hkind, hfor⟩ := hpc
    simp only [slotStep, hfor.2] at hstep
    rw [if_neg (by omega), hon.index_eq hok] at hstep
    cases hstep
    exact .silent hok ⟨rfl, Or.inr ⟨run, rfl, hkind, hfor⟩⟩ rfl
  | record v rest =>
    cases rest with
    | cons x rest =>
      cases hstep
      exact .apply hok (hpc.setHeader ((s.header c.page).apply_facts x).2.1) fun _ => .record
    | nil =>
      simp only [slotStep] at hstep
      split at hstep <;> rename_i hlinks <;> cases hstep
      · refine .storeState hok (hpc.setHeader rfl) (by cases c.kind <;> decide) ?_
        rw [SlotPc.phase, SlotPc.phase, if_pos (show (c.op i).link1.isSome from hlinks)]
        exact .commit hlinks
      · exact .silent hok hpc (if_neg hlinks)
  | loadByte v =>
    cases hstep
    exact .silent hok ⟨hpc, rfl⟩ rfl
  | storeByte v b =>
    cases hstep
    obtain ⟨hv, rfl⟩ := hpc
    exact .mark hok hv
  | release v =>
    cases hstep
    exact .storeState hok (hpc.setHeader rfl) (by decide) .release
  | clear v rest =>
    cases rest with
    | cons x rest =>
      cases hstep
      exact .apply hok (hpc.setHeader ((s.header c.page).apply_facts x).2.1) fun _ => .clear
    | nil =>
      simp only [slotStep] at hstep
      cases hrun : v.run with
      | none =>
        simp only [hrun] at hstep
        cases hstep
        exact .silent hok trivial rfl
      | some run =>
        simp only [hrun] at hstep
        cases hstep
        exact .volatile hok rfl rfl le_rfl (fun _ _ => release_elemSize) trivial rfl
  | done => exact absurd hstep (by simp [slotStep])
  | lost => exact hpc.elim

end

/-! ## Mutual exclusion -/

/-- Calls on slots of the runs: each knows where it is, and of each run at most one holds the state. -/
structure LockInv {ι : Type} (call : ι → SlotCall) (slot : ι → ℕ) (runs : ℕ → Prop) (s : SlotHeap)
    (pc : ι → SlotPc) : Prop where
  ok : ∀ p, runs p → RunFields.Ok s p
  on : ∀ k, pc k ≠ .done → runs (call k).page ∧ (call k).On s (call k).page (slot k)
  pcs : ∀ k, PcOk (call k) s (slot k) (pc k)
  one : ∀ j k, (pc j).Holds → (pc k).Holds → (call j).page = (call k).page → j = k
  busy : ∀ k, (pc k).Holds → (s.header (call k).page).state ≠ usageRun + stateInitialized
  free : ∀ p, runs p → (∀ k, (pc k).Holds → (call k).page ≠ p) →
    (s.header p).state = usageRun + stateInitialized

section

variable {ι : Type} {call : ι → SlotCall} {slot : ι → ℕ} {runs : ℕ → Prop}
  {s s' : SlotHeap} {pc : ι → SlotPc} {pc' : SlotPc} {k : ι}

/-- A call that takes a step is not done. -/
theorem ne_done_of_step {c : SlotCall} {pc : SlotPc} (hstep : slotStep c s pc = some (s', pc')) :
    pc ≠ .done := by
  rintro rfl
  exact absurd hstep (by simp [slotStep])

theorem LockInv.facts (h : LockInv call slot runs s pc)
    (hstep : slotStep (call k) s (pc k) = some (s', pc')) :
    StepFacts (call k) s (slot k) (pc k) s' pc' := by
  obtain ⟨hrun, hon⟩ := h.on k (ne_done_of_step hstep)
  exact slotStep_facts (h.ok _ hrun) hon (h.pcs k) hstep

/-- A step does not change what the holder of a run, another call, reads there. -/
theorem LockInv.reads (h : LockInv call slot runs s pc)
    (hstep : slotStep (call k) s (pc k) = some (s', pc')) {j : ι} (hj : j ≠ k)
    (hholds : (pc j).Holds) :
    (s'.header (call j).page).vdata = (s.header (call j).page).vdata ∧
      (s'.header (call j).page).bitmap = (s.header (call j).page).bitmap := by
  have hf := h.facts hstep
  by_cases hpage : (call j).page = (call k).page
  · rw [hpage]
    exact hf.reads fun hk => hj (h.one j k hholds hk hpage)
  · rw [hf.frame _ hpage]
    exact ⟨rfl, rfl⟩

theorem LockInv.nBytes_eq (h : LockInv call slot runs s pc)
    (hstep : slotStep (call k) s (pc k) = some (s', pc')) (p : ℕ) :
    (s'.header p).nBytes = (s.header p).nBytes := by
  have hf := h.facts hstep
  by_cases hpage : p = (call k).page
  · rw [hpage, hf.nBytes]
  · rw [hf.frame _ hpage]

/-- Only one call is in the state of a run. -/
theorem LockInv.one_step (h : LockInv call slot runs s pc)
    (hstep : slotStep (call k) s (pc k) = some (s', pc')) {j : ι} (hj : j ≠ k) (hholds : (pc j).Holds)
    (hpc' : pc'.Holds) : (call j).page ≠ (call k).page := by
  intro hpage
  by_cases hk : (pc k).Holds
  · exact hj (h.one j k hholds hk hpage)
  · -- the compare-and-swap succeeds on a free run only
    refine h.busy j hholds ?_
    rw [hpage]
    exact ((h.facts hstep).lockStep.acquire hk hpc').1

variable [DecidableEq ι]

/-- **A step of any call keeps the exclusion.** -/
theorem LockInv.step (h : LockInv call slot runs s pc)
    (hstep : slotStep (call k) s (pc k) = some (s', pc')) :
    LockInv call slot runs s' (Function.update pc k pc') := by
  have hf := h.facts hstep
  have hlock := hf.lockStep
  have hbytes := h.nBytes_eq hstep
  have hne := ne_done_of_step hstep
  refine ⟨fun p hp => ?_, fun j hj => ?_, fun j => ?_, fun j l hj hl hpage => ?_, fun j hj => ?_,
    fun p hp hnone => ?_⟩
  · by_cases hpk : p = (call k).page
    · rw [hpk]
      exact hf.ok
    · obtain ⟨hpage, harena, hclass, husage, hvdata⟩ := h.ok p hp
      have heq := hf.frame p hpk
      refine ⟨hpage, ?_, ?_, ?_, ?_⟩ <;> rw [heq]
      · exact harena
      · exact hclass
      · exact husage
      · rw [hf.currentVersion]
        intro hcurrent
        obtain ⟨hlt, hsize⟩ := hvdata hcurrent
        exact ⟨lt_of_lt_of_le hlt hf.nVheaders, by rw [hf.elemSize _ hlt, hsize]⟩
  · have hjdone : pc j ≠ .done := by
      by_cases hjk : j = k
      · rw [hjk]
        exact hne
      · rwa [Function.update_of_ne hjk] at hj
    obtain ⟨hrun, hlt, hptr⟩ := h.on j hjdone
    rw [← hbytes] at hlt hptr
    exact ⟨hrun, hlt, hptr⟩
  · by_cases hjk : j = k
    · rw [hjk, Function.update_self]
      exact hf.pcOk
    · rw [Function.update_of_ne hjk]
      exact (h.pcs j).congr hf.nVheaders hf.elemSize (hbytes _) (h.reads hstep hjk)
  · by_cases hjk : j = k
    · by_cases hlk : l = k
      · rw [hjk, hlk]
      · rw [hjk, Function.update_self] at hj
        rw [Function.update_of_ne hlk] at hl
        rw [hjk] at hpage
        exact absurd hpage.symm (h.one_step hstep hlk hl hj)
    · rw [Function.update_of_ne hjk] at hj
      by_cases hlk : l = k
      · rw [hlk, Function.update_self] at hl
        rw [hlk] at hpage
        exact absurd hpage (h.one_step hstep hjk hj hl)
      · rw [Function.update_of_ne hlk] at hl
        exact h.one j l hj hl hpage
  · by_cases hjk : j = k
    · rw [hjk, Function.update_self] at hj
      rw [hjk]
      by_cases hk : (pc k).Holds
      · exact hlock.busy hk hj (h.busy k hk)
      · exact (hlock.acquire hk hj).2
    · rw [Function.update_of_ne hjk] at hj
      by_cases hpage : (call j).page = (call k).page
      · have hk : ¬ (pc k).Holds := fun hk => hjk (h.one j k hj hk hpage)
        rw [hpage, Ne, hlock.outside hk fun hk' => h.one_step hstep hjk hj hk' hpage, ← hpage]
        exact h.busy j hj
      · rw [hf.frame _ hpage]
        exact h.busy j hj
  · have hothers : ∀ j, j ≠ k → (pc j).Holds → (call j).page ≠ p := fun j hjk hj =>
      hnone j (by rwa [Function.update_of_ne hjk])
    by_cases hpk : p = (call k).page
    · have hk' : ¬ pc'.Holds := fun hk' => hnone k (by rwa [Function.update_self]) hpk.symm
      by_cases hk : (pc k).Holds
      · rw [hpk]
        exact hlock.release hk hk'
      · rw [hpk, hlock.outside hk hk', ← hpk]
        refine h.free p hp fun j hj => ?_
        by_cases hjk : j = k
        · exact absurd (hjk ▸ hj) hk
        · exact hothers j hjk hj
    · rw [hf.frame p hpk]
      refine h.free p hp fun j hj => ?_
      by_cases hjk : j = k
      · rw [hjk]
        exact fun heq => hpk heq.symm
      · exact hothers j hjk hj

end

/-! ## Calls on one run -/

/-- The heap and the progress of each call. -/
structure SlotSystem (ι : Type) where
  heap : SlotHeap
  pc : ι → SlotPc

/-- The next step of call `k`. -/
def SlotSystem.step {ι : Type} [DecidableEq ι] (call : ι → SlotCall) (s : SlotSystem ι) (k : ι) :
    Option (SlotSystem ι) :=
  (slotStep (call k) s.heap (s.pc k)).map fun r => ⟨r.1, Function.update s.pc k r.2⟩

/-- The calls are on distinct slots of the run on page `p`, which no operation holds. -/
structure CallsOnRun {ι : Type} (call : ι → SlotCall) (slot : ι → ℕ) (p : ℕ) (s : SlotHeap) : Prop where
  ok : RunFields.Ok s p
  on : ∀ k, (call k).On s p (slot k)
  distinct : Function.Injective slot
  state : (s.header p).state = usageRun + stateInitialized

/-- The states that the calls, started in `s₀`, can reach in any interleaving. -/
def Interleaved {ι : Type} [DecidableEq ι] (call : ι → SlotCall) (s₀ : SlotHeap) (s : SlotSystem ι) :
    Prop :=
  Runs (fun s => s = ⟨s₀, fun _ => .loadUsage⟩) (SlotSystem.step call) (fun _ _ => True) s

section

variable {ι : Type} {call : ι → SlotCall} {slot : ι → ℕ} {p : ℕ} {s₀ : SlotHeap} {s : SlotSystem ι}

/-- The exclusion, and the bitmap so far: the slots of the calls that stored their byte are changed. -/
structure BitmapInv (call : ι → SlotCall) (slot : ι → ℕ) (p : ℕ) (s₀ : SlotHeap) (s : SlotSystem ι) :
    Prop where
  lock : LockInv call slot (· = p) s.heap s.pc
  marked : ∀ k, (s.pc k).Marked →
    (s.heap.header p).bit (slot k) = decide ((call k).kind = .activate)
  unmarked : ∀ j, (∀ k, slot k = j → ¬ (s.pc k).Marked) → (s.heap.header p).bit j = (s₀.header p).bit j

theorem CallsOnRun.page_eq (h : CallsOnRun call slot p s₀) (k : ι) : (call k).page = p :=
  (h.on k).page_eq h.ok

theorem CallsOnRun.initial (h : CallsOnRun call slot p s₀) :
    LockInv call slot (· = p) s₀ fun _ => .loadUsage where
  ok := by rintro _ rfl; exact h.ok
  on k _ := ⟨h.page_eq k, by rw [h.page_eq k]; exact h.on k⟩
  pcs _ := trivial
  one _ _ hno := hno.elim
  busy _ hno := hno.elim
  free := by rintro _ rfl _; exact h.state

variable [DecidableEq ι]

theorem SlotSystem.step_eq_some {k : ι} {s' : SlotSystem ι} (hstep : s.step call k = some s') :
    ∃ heap' pc', slotStep (call k) s.heap (s.pc k) = some (heap', pc') ∧
      s' = ⟨heap', Function.update s.pc k pc'⟩ := by
  obtain ⟨⟨heap', pc'⟩, hcall, rfl⟩ := Option.map_eq_some_iff.mp hstep
  exact ⟨heap', pc', hcall, rfl⟩

/-- **The calls are operations on the run.**  In every interleaving, what `RunHeader` keeps of the header
and how far the calls have come is a state of `runStep`. -/
theorem CallsOnRun.refines (hcalls : CallsOnRun call slot p s₀) (hs : Interleaved call s₀ s) :
    LockInv call slot (· = p) s.heap s.pc ∧ ∃ holder,
      Runs (fun r => r.header = (s₀.header p).runHeader ∧ ∀ k, r.phase k = .waiting)
        (runStep fun k => (call k).op (slot k)) (fun _ _ => True)
        ⟨(s.heap.header p).runHeader, holder, fun k => (s.pc k).phase ((call k).op (slot k))⟩ := by
  induction hs with
  | start hs =>
    subst hs
    exact ⟨hcalls.initial, none, .start ⟨rfl, fun _ => rfl⟩⟩
  | @next s s' k _ _ hstep ih =>
    obtain ⟨hlock, holder, hr⟩ := ih
    obtain ⟨heap', pc', hcall, rfl⟩ := SlotSystem.step_eq_some hstep
    refine ⟨hlock.step hcall, ?_⟩
    have hmove := (hlock.facts hcall).move
    have hphase : (fun j => (Function.update s.pc k pc' j).phase ((call j).op (slot j))) =
        Function.update (fun j => (s.pc j).phase ((call j).op (slot j))) k
          (pc'.phase ((call k).op (slot k))) :=
      funext fun j => Function.apply_update (fun j => SlotPc.phase ((call j).op (slot j))) s.pc k pc' j
    simp only [hphase]
    rw [hcalls.page_eq k] at hmove
    rcases hmove with ⟨hheader, hsame⟩ | hmove
    · rw [hheader, hsame, Function.update_eq_self]
      exact ⟨holder, hr⟩
    · exact ⟨_, hr.next (a := k) trivial (runStep_iff.mpr ⟨_, _, hmove, rfl⟩)⟩

/-- The exclusion and the bitmap in every interleaving. -/
theorem CallsOnRun.bitmapInv (hcalls : CallsOnRun call slot p s₀) (hs : Interleaved call s₀ s) :
    BitmapInv call slot p s₀ s := by
  obtain ⟨hlock, holder, hr⟩ := hcalls.refines hs
  have hbits : MarkedBits (fun k => (call k).op (slot k)) (s₀.header p).bit _ :=
    hr.invariant (fun _ h => .initial h.2 (congrArg RunHeader.bitmap h.1))
      fun _ _ _ h _ => h.step hcalls.distinct
  exact ⟨hlock, fun k hk => hbits.marked k ((SlotPc.phase_marked ..).mpr hk), fun j hj =>
    hbits.unmarked j fun k hk hm => hj k hk ((SlotPc.phase_marked ..).mp hm)⟩

/-- **No update of the bitmap is lost.**  When all calls have finished, the bits of their slots are
set by the activations and cleared by the frees, every other bit is as before, and the run is
released. -/
theorem no_lost_bitmap_update (hcalls : CallsOnRun call slot p s₀) (hs : Interleaved call s₀ s)
    (hdone : ∀ k, s.pc k = .done) :
    (∀ k, (s.heap.header p).bit (slot k) = decide ((call k).kind = .activate)) ∧
    (∀ j, (∀ k, slot k ≠ j) → (s.heap.header p).bit j = (s₀.header p).bit j) ∧
    (s.heap.header p).state = usageRun + stateInitialized := by
  have h := hcalls.bitmapInv hs
  refine ⟨fun k => h.marked k ?_, fun j hj => h.unmarked j fun k hk => absurd hk (hj k), ?_⟩
  · rw [hdone k]
    trivial
  · refine h.lock.free p rfl fun k hk => ?_
    rw [hdone k] at hk
    exact hk.elim

end

/-- An activation of slot 0 with a link and a free of slot 1 of one run; the two slots share a byte. -/
def twoCalls : Bool → SlotCall
  | false => ⟨.activate, 4160, some (8192, 4160), none⟩
  | true => ⟨.free, 4224, none, none⟩

/-- A run on page 1 with slots of 64 bytes, of which slot 1 is used. -/
def twoSlots : SlotHeap where
  header _ := ⟨usageRun + stateInitialized, 64, 0, 0, 1, bitIdxNone, fun _ => (0, 0),
    fun k => if k = 0 then 2 else 0⟩
  vheaders _ := ⟨4096, (0, 0), 64, 61, 63, fun i => i < 2, none⟩
  nVheaders := 1
  bin _ := ⟨some 0, 61, 1, none⟩
  currentVersion := 1

/-- The free gets in while the activation still clears its record. -/
def overlapping : List Bool :=
  List.replicate 8 false ++ [true] ++ List.replicate 2 false ++ List.replicate 5 true ++
    List.replicate 3 false ++ List.replicate 5 true ++ List.replicate 3 false ++ List.replicate 5 true

def SlotPc.isDone : SlotPc → Bool
  | .done => true
  | _ => false

theorem SlotPc.eq_done {pc : SlotPc} (h : pc.isDone = true) : pc = .done := by
  cases pc <;> first | rfl | exact absurd h (by simp [SlotPc.isDone])

theorem twoCalls_onRun : CallsOnRun twoCalls (fun k => if k then 1 else 0) 1 twoSlots where
  ok := ⟨by decide, by decide, ⟨0, by decide, rfl⟩, by decide, fun _ => ⟨by decide, rfl⟩⟩
  on k := by cases k <;> exact ⟨by decide, rfl⟩
  distinct := by
    intro j k h
    cases j <;> cases k <;> simp_all
  state := rfl

/-- The two calls in one interleaving. -/
theorem no_lost_bitmap_update_overlapping : ∃ s, Interleaved twoCalls twoSlots s ∧
    (∀ k, s.pc k = .done) ∧ (s.heap.header 1).bit 0 = true ∧ (s.heap.header 1).bit 1 = false := by
  have hrun : ((runActions (SlotSystem.step twoCalls) ⟨twoSlots, fun _ => .loadUsage⟩
      overlapping).any fun s => (s.pc false).isDone && (s.pc true).isDone) = true := by
    decide +kernel
  have hstart : Interleaved twoCalls twoSlots ⟨twoSlots, fun _ => .loadUsage⟩ := .start rfl
  obtain ⟨s, hs, htest⟩ := hstart.exists_of_actions hrun
  obtain ⟨hactivate, hfree⟩ := Bool.and_eq_true_iff.mp htest
  have hdone : ∀ k, s.pc k = .done := by
    intro k
    cases k with
    | false => exact SlotPc.eq_done hactivate
    | true => exact SlotPc.eq_done hfree
  obtain ⟨hbits, -, -⟩ := no_lost_bitmap_update twoCalls_onRun hs hdone
  exact ⟨s, hs, hdone, hbits false, hbits true⟩

end NvmMalloc
