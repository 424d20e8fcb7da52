import NvmMalloc.Partition
import NvmMalloc.RecoveredHeap

/-!
# What a pointer points to

Reference: `src/util.c` (`identify_usage`), `src/nvm_malloc.c` (`nvm_activate`, `nvm_free`).

The program tells the kind of a region from its address and one header byte.  A pointer keeps naming a
tile after its region is gone, because tiles are only ever refined; so the decision is sound for every
pointer that a reservation has returned, however long ago.
-/

namespace NvmMalloc

open Memory

/-! ## Pointers that were returned -/

/-- The pointer that a call returns to the client. -/
def Op.returned (res : Option ℕ) : Op → List ℕ
  | .reserve _ _ | .reserveId _ _ _ => res.toList
  | _ => []

/-- The states between the calls of one process, with all pointers that reservations have returned. -/
inductive PtrRun (P : Process) : Sys → List ℕ → Prop where
  | start {nvm : Nvm} {fuel : ℕ} {w : World}
      (hinit : (nvmInitialize P.junk fuel false (P.start nvm)).2 = .ok ((), w)) : PtrRun P ⟨w, []⟩ []
  | step {s : Sys} {ptrs : List ℕ} {op : Op} {res : Option ℕ} {w' : World} (hs : PtrRun P s ptrs)
      (hvalid : op.Valid s) (hrun : (op.prog s.w).2 = .ok (res, w')) :
      PtrRun P ⟨w', op.ledger s res⟩ (op.returned res ++ ptrs)

/-! ## The decision -/

/-- The header that the program looks at for a pointer. -/
def headerOf (m : Mem) (x : ℕ) : ℕ :=
  if identifyUsage m x = some .huge then x - headerSize else x / blockSize * blockSize

/-- The kind of a pointer is what NVM has at its address. -/
structure Classified (nvm : Nvm) (x : ℕ) : Prop where
  inHeap : x / chunkSize < nvm.nextChunk
  header : headerOf nvm.mem x ∈ (headerPages nvm).map (4096 * ·)
  huge : identifyUsage nvm.mem x = some .huge ↔ x / chunkSize ∉ arenaChunks nvm
  run : identifyUsage nvm.mem x = some .run ↔
    getUsage (field nvm.mem (headerOf nvm.mem x) stateF) = usageRun
  block : identifyUsage nvm.mem x = some .block ↔ x / chunkSize ∈ arenaChunks nvm ∧
    getUsage (field nvm.mem (headerOf nvm.mem x) stateF) ≠ usageRun

/-- The kind of region that a request of `nBytes` bytes is served with. -/
def usageClass (nBytes : ℕ) : Usage :=
  if nBytes ≤ sclassSmallMax then .run else if nBytes ≤ sclassLargeMax then .block else .huge

/-- The branches of `nvm_activate` behind the log entry. -/
def activateAs (ptr : ℕ) (l1 l2 : Option Link) : Usage → Prog Unit
  | .huge => commitHeader (ptr - headerSize) (usageHuge + stateActivating)
      (usageHuge + stateInitialized) l1 l2
  | .block => commitHeader (ptr / blockSize * blockSize) (usageBlock + stateActivating)
      (usageBlock + stateInitialized) l1 l2
  | .run => nvmActivateSmall ptr (ptr / blockSize * blockSize) l1 l2

/-- The branches of `nvm_free` and `arena_free`. -/
def freeAs (ptr : ℕ) (l1 l2 : Option Link) : Usage → Prog Unit
  | .huge => do
    let nChunks ← loadField (ptr - headerSize) nChunksF
    commitHeader (ptr - headerSize) (usageHuge + stateFreeing) (usageFree + stateInitialized) l1 l2
    addFreeChunk ⟨ptr - headerSize, nChunks⟩
  | .block => arenaFreeLarge (ptr / blockSize * blockSize) l1 l2
  | .run => arenaFreeSmall ptr (ptr / blockSize * blockSize) l1 l2

/-- An outstanding pointer is taken for the kind of region it was reserved as, and the calls the client
may make on it take the branch of this kind. -/
structure TakesBranch (w : World) (r : Region) : Prop where
  usage : identifyUsage w.nvm.mem r.ptr = some (usageClass r.nBytes)
  activate : r.active = false → ∀ l1 l2, nvmActivate r.ptr l1 l2 w =
    (do logActivate r.ptr; activateAs r.ptr l1 l2 (usageClass r.nBytes)) w
  free : r.active = true → ∀ l1 l2, nvmFree r.ptr l1 l2 w = freeAs r.ptr l1 l2 (usageClass r.nBytes) w

/-! ## Every pointer names a tile -/

section

variable {P : Process} {s : Sys} {ptrs : List ℕ} {op : Op} {res : Option ℕ} {r : Region}

/-- A region of the ledger after a call was there before or is returned by the call. -/
theorem Op.mem_ledger (hr : r ∈ op.ledger s res) :
    (∃ r' ∈ s.live, r'.ptr = r.ptr) ∨ r.ptr ∈ op.returned res := by
  have hset : ∀ {ptr : ℕ}, r ∈ setActive ptr s.live → ∃ r' ∈ s.live, r'.ptr = r.ptr := by
    intro ptr hr
    obtain ⟨r', hr', rfl⟩ := List.mem_map.mp hr
    refine ⟨r', hr', ?_⟩
    split <;> rfl
  have hdrop : ∀ {ptr : ℕ}, r ∈ dropRegion ptr s.live → ∃ r' ∈ s.live, r'.ptr = r.ptr :=
    fun hr => ⟨r, (mem_dropRegion.mp hr).1, rfl⟩
  cases op with
  | reserve a n | reserveId id a n =>
    cases res with
    | none => exact Or.inl ⟨r, hr, rfl⟩
    | some ptr =>
      rcases List.mem_cons.mp hr with rfl | hr
      · exact Or.inr (List.mem_singleton.mpr rfl)
      · exact Or.inl ⟨r, hr, rfl⟩
  | activate ptr l1 l2 => exact Or.inl (hset hr)
  | free ptr l1 l2 => exact Or.inl (hdrop hr)
  | write addr b => exact Or.inl ⟨r, hr, rfl⟩
  | activateId id =>
    rw [Op.ledger] at hr
    split at hr
    · exact Or.inl ⟨r, hr, rfl⟩
    · exact Or.inl (hset hr)
  | freeId id =>
    rw [Op.ledger] at hr
    split at hr
    · exact Or.inl ⟨r, hr, rfl⟩
    · exact Or.inl (hdrop hr)

/-- The pointer that a call returns is in the ledger. -/
theorem Op.returned_mem {x : ℕ} (hx : x ∈ op.returned res) : ∃ r ∈ op.ledger s res, r.ptr = x := by
  cases op with
  | reserve a n | reserveId id a n =>
    obtain rfl : res = some x := Option.mem_toList.mp hx
    exact ⟨_, List.mem_cons_self, rfl⟩
  | _ => exact absurd hx List.not_mem_nil

/-- **Every pointer that was returned names a tile.** -/
theorem PtrRun.logged (h : PtrRun P s ptrs) :
    ∃ L, ProcInv L s.w s.live ∧ TableInv s.w ∧ ∀ x ∈ ptrs, Logged L x := by
  induction h with
  | start hinit =>
    obtain ⟨L, hproc, ht, -⟩ := ((nvmInitialize_fresh_spec P _ _ _).result hinit).1
    exact ⟨L, hproc, ht, fun x hx => absurd hx List.not_mem_nil⟩
  | @step s ptrs op res w' _ hvalid hrun ih =>
    obtain ⟨L, hproc, ht, hlogged⟩ := ih
    obtain ⟨L', hproc', ht', -, hevolves⟩ := (op_evolves hproc ht hvalid).result hrun
    refine ⟨L', hproc', ht', fun x hx => ?_⟩
    rcases List.mem_append.mp hx with hnew | hold
    · obtain ⟨r, hr, rfl⟩ := Op.returned_mem (s := s) hnew
      exact hproc'.toHeapInv.logged_ptr hr
    · exact hevolves.refines.logged (hlogged x hold)

/-- Every outstanding pointer was returned. -/
theorem PtrRun.mem_of_live (h : PtrRun P s ptrs) (hr : r ∈ s.live) : r.ptr ∈ ptrs := by
  induction h generalizing r with
  | start => exact absurd hr List.not_mem_nil
  | step _ _ _ ih =>
    rcases Op.mem_ledger hr with ⟨r', hr', hptr⟩ | hnew
    · exact List.mem_append_right _ (hptr ▸ ih hr')
    · exact List.mem_append_left _ hnew

end

/-! ## Soundness of the decision -/

section

variable {L : Layout} {w : World} {live : List Region} {p x : ℕ} {t : Tile}

/-- What `identify_usage` makes of a pointer to a tile. -/
def Tile.usage : Tile → Usage
  | .huge _ _ => .huge
  | .run _ => .run
  | _ => .block

theorem NvmInv.identifyUsage_tile {nvm : Nvm} (h : NvmInv L nvm) (hp : L p = some t)
    (hx : Names x p t) : identifyUsage nvm.mem x = some t.usage := by
  have hfits := h.ok.fits hp
  have hquiet := h.quiet hp
  cases t with
  | arena => exact hx.elim
  | huge n o =>
    simp only [Tile.Fits, Names] at hfits hx
    rw [identifyUsage, if_pos (by simp only [chunkSize, headerSize]; omega)]
    rfl
  | block n o =>
    simp only [Names] at hx
    rw [hx, identifyUsage_page _ hfits.1, if_pos]
    · rfl
    · rw [hquiet.2.2.1]
      cases o with
      | user b => cases b <;> decide
      | _ =>
        show getUsage (usageFree + stateInitialized) = usageBlock ∨
          getUsage (usageFree + stateInitialized) = usageFree
        decide
  | run k =>
    refine identifyUsage_run hx hfits ?_
    rw [hquiet.2.1]
    decide
  | stuck n => exact hquiet.elim

/-- A pointer to a tile leads to the header of this tile. -/
theorem NvmInv.headerOf_tile {nvm : Nvm} (h : NvmInv L nvm) (hp : L p = some t)
    (hx : Names x p t) : headerOf nvm.mem x = 4096 * p := by
  unfold headerOf
  rw [h.identifyUsage_tile hp hx]
  cases t with
  | huge n o =>
    simp only [Names] at hx
    rw [if_pos (by rfl), hx, headerSize]
    omega
  | _ =>
    rw [if_neg (by simp [Tile.usage])]
    exact hx.header

/-- **The kind of a pointer that names a tile is the kind of the tile.** -/
theorem NvmInv.classified {nvm : Nvm} (h : NvmInv L nvm) (hx : Logged L x) : Classified nvm x := by
  obtain ⟨p, t, hp, hnames⟩ := hx
  have husage := h.identifyUsage_tile hp hnames
  have hheader := h.headerOf_tile hp hnames
  have hpage := hnames.page
  have hchunk : x / chunkSize = p / 1024 := by
    simp only [chunkSize]
    omega
  have hend := h.ok.add_len_le hp
  have hpos := h.ok.len_pos hp
  have harena : x / chunkSize ∈ arenaChunks nvm ↔ t.usage ≠ .huge := by
    rw [hchunk, h.aligned.arenaChunks.2]
    have hfits := h.ok.fits hp
    cases t with
    | arena => exact hnames.elim
    | huge n o =>
      simp only [Tile.Fits] at hfits
      rw [show 1024 * (p / 1024) = p by omega, hp]
      simp [Tile.usage]
    | block n o => exact iff_of_true (h.aligned.arena_of_page hp hfits.1) (by simp [Tile.usage])
    | run k => exact iff_of_true (h.aligned.arena_of_page hp hfits) (by simp [Tile.usage])
    | stuck n => exact (h.quiet hp).elim
  have hrun : getUsage (field nvm.mem (4096 * p) stateF) = usageRun ↔ t.usage = .run := by
    have hstuck : ∀ n, t ≠ .stuck n := by
      rintro n rfl
      exact h.quiet hp
    have hkind := ((h.quiet hp).hdrOk.usage hstuck).2
    unfold usageAt at hkind
    rw [hkind]
    cases t <;> simp [Tile.usage]
  refine ⟨by omega, ?_, ?_, ?_, ?_⟩
  · rw [hheader]
    refine List.mem_map_of_mem (h.aligned.mem_headerPages.mpr ?_)
    rw [hp]
    rfl
  · rw [husage, harena, not_not, Option.some.injEq]
  · rw [husage, hheader, hrun, Option.some.injEq]
  · rw [husage, hheader, harena, ne_eq, ne_eq, hrun, Option.some.injEq]
    cases t <;> simp [Tile.usage]

/-- Programs that agree behind the log entry of an activation agree. -/
theorem logActivate_bind_congr {ptr : ℕ} {f g : Prog Unit}
    (h : ∀ w', w'.nvm.mem = w.nvm.mem → f w' = g w') :
    (do logActivate ptr; f) w = (do logActivate ptr; g) w := by
  have hlog : ∃ w', (logActivate ptr w).2 = .ok ((), w') ∧ w'.nvm.mem = w.nvm.mem := ⟨_, rfl, rfl⟩
  obtain ⟨w', hok, hmem⟩ := hlog
  show CrashM.bind _ _ w = CrashM.bind _ _ w
  unfold CrashM.bind
  rw [hok]
  simp only [h w' hmem]

/-- Reading a header does not change the state. -/
theorem loadField_bind {α : Type} {a : ℕ} {f : NvmField} {k : ℕ → Prog α} {st : ℕ}
    (hst : field w.nvm.mem a f = st) : (loadField a f >>= k) w = k st w := by
  rw [← hst]
  rfl

/-- **An outstanding pointer takes the branch of its size class.** -/
theorem HeapInv.takesBranch (h : HeapInv L w live) {r : Region} (hr : r ∈ live) : TakesBranch w r := by
  have hsizes : sclassSmallMax ≤ sclassLargeMax := by decide
  cases h.live.placed r hr with
  | @small hsize p k i htile helem hi hptr hbit hnvm =>
    have hend := slot_end_le hi
    have helem64 := le_elemSize (h.live.size r hr).1 helem
    have hnames : Names r.ptr p (.run k) := ⟨by omega, by omega⟩
    obtain ⟨hmod, hpage⟩ := h.small_ptr htile helem64 hi hptr
    obtain ⟨-, hst, -⟩ : Quiet w.nvm.mem p (.run k) := h.nvm.quiet htile
    have hclass : usageClass r.nBytes = .run := by
      unfold usageClass
      rw [if_pos hsize]
    rw [← hpage] at hst
    refine ⟨by rw [hclass]; exact h.nvm.identifyUsage_tile htile hnames, fun _ l1 l2 => ?_,
      fun _ l1 l2 => ?_⟩
    · unfold nvmActivate
      refine logActivate_bind_congr fun w' hmem => ?_
      rw [if_neg hmod, loadField_bind (hmem ▸ hst), if_neg (by decide), hclass]
      rfl
    · unfold nvmFree arenaFree
      rw [if_neg hmod, loadField_bind hst, if_neg (by decide), if_pos (by decide), hclass]
      rfl
  | @large hlo hhi p htile hptr =>
    obtain ⟨hmod, hpage⟩ := h.large_ptr htile hptr
    obtain ⟨-, -, hst, -⟩ := h.nvm.quiet htile
    have hclass : usageClass r.nBytes = .block := by
      unfold usageClass
      rw [if_neg (by omega), if_pos hhi]
    rw [← hpage] at hst
    refine ⟨by rw [hclass]; exact h.nvm.identifyUsage_tile htile hptr, fun hactive l1 l2 => ?_,
      fun hactive l1 l2 => ?_⟩
    · rw [hactive] at hst
      unfold nvmActivate
      refine logActivate_bind_congr fun w' hmem => ?_
      rw [if_neg hmod, loadField_bind (hmem ▸ hst), if_pos (by decide), hclass]
      rfl
    · rw [hactive] at hst
      unfold nvmFree arenaFree
      rw [if_neg hmod, loadField_bind hst, if_pos (by decide), hclass]
      rfl
  | @huge hlo p htile hptr =>
    obtain ⟨hmod, -⟩ := h.huge_ptr htile hptr
    have hclass : usageClass r.nBytes = .huge := by
      unfold usageClass
      rw [if_neg (by omega), if_neg (by omega)]
    refine ⟨by rw [hclass]; exact h.nvm.identifyUsage_tile htile hptr, fun _ l1 l2 => ?_,
      fun _ l1 l2 => ?_⟩
    · unfold nvmActivate
      refine logActivate_bind_congr fun w' _ => ?_
      rw [if_pos hmod, hclass]
      rfl
    · unfold nvmFree
      rw [if_pos hmod, hclass]
      rfl

end

/-! ## Whole histories -/

section

variable {P : Process} {s s' : Sys} {ptrs : List ℕ}

/-- **Pointers are classified soundly**, also those whose regions were freed and reused; outstanding ones
as the regions they were reserved as. -/
theorem pointers_classified (h : PtrRun P s ptrs) :
    (∀ x ∈ ptrs, Classified s.w.nvm x) ∧ ∀ r ∈ s.live, r.ptr ∈ ptrs ∧ TakesBranch s.w r := by
  obtain ⟨L, hproc, -, hlogged⟩ := h.logged
  exact ⟨fun x hx => hproc.nvm.classified (hlogged x hx),
    fun r hr => ⟨h.mem_of_live hr, hproc.toHeapInv.takesBranch hr⟩⟩

/-- A run goes on with the calls of a history and keeps its pointers. -/
theorem PtrRun.execs {ops : List Op} (h : PtrRun P s ptrs) (hexec : s.execs ops = some s') :
    ∃ ptrs', PtrRun P s' (ptrs' ++ ptrs) := by
  induction ops generalizing s ptrs with
  | nil => exact ⟨[], Option.some.inj hexec ▸ h⟩
  | cons op ops ih =>
    obtain ⟨s₁, hcall, hrest⟩ := Option.bind_eq_some_iff.mp hexec
    cases Sys.step_of_exec hcall with
    | @call res w' hvalid hrun =>
      obtain ⟨ptrs', hrun'⟩ := ih (h.step hvalid hrun) hrest
      exact ⟨ptrs' ++ op.returned res, by rwa [List.append_assoc]⟩

theorem PtrRun.of_reachable (h : Reachable P s) : ∃ ptrs, PtrRun P s ptrs := by
  induction h with
  | start hinit => exact ⟨[], .start hinit⟩
  | step _ hstep ih =>
    obtain ⟨ptrs, h⟩ := ih
    cases hstep with
    | call hvalid hrun => exact ⟨_, h.step hvalid hrun⟩

end

/-- A large region that was freed and has lost its tail to a run. -/
theorem pointers_classified_recycled :
    ∃ s ptrs, PtrRun sampleProcess s ptrs ∧ 4186176 ∈ ptrs ∧ (∀ r ∈ s.live, r.ptr ≠ 4186176) ∧
      identifyUsage s.w.nvm.mem 4186176 = some .block ∧
      (∀ x ∈ ptrs, Classified s.w.nvm x) ∧ ∀ r ∈ s.live, r.ptr ∈ ptrs ∧ TakesBranch s.w r := by
  have hcalls : ((sampleHistory [.reserve 0 5000, .activate 4186176 none none]).any
      fun s => s.live.any (fun r => r.ptr = 4186176) &&
        (s.execs [.free 4186176 none none, .reserve 0 100]).any fun s' =>
          decide (∀ r ∈ s'.live, r.ptr ≠ 4186176) &&
            decide (identifyUsage s'.w.nvm.mem 4186176 = some .block)) = true := by
    decide +kernel
  obtain ⟨s, hs, htest⟩ := Process.exists_reachable hcalls
  rw [Bool.and_eq_true, List.any_eq_true, Option.any_eq_true] at htest
  obtain ⟨⟨r, hr, hptr⟩, s', hexec, htest⟩ := htest
  rw [Bool.and_eq_true, decide_eq_true_iff, decide_eq_true_iff] at htest
  obtain ⟨ptrs, hrun⟩ := PtrRun.of_reachable hs
  obtain ⟨ptrs', hrun'⟩ := hrun.execs hexec
  have hmem : 4186176 ∈ ptrs := by
    rw [decide_eq_true_iff] at hptr
    exact hptr ▸ hrun.mem_of_live hr
  exact ⟨s', _, hrun', List.mem_append_right _ hmem, htest.1, htest.2, pointers_classified hrun'⟩

end NvmMalloc
