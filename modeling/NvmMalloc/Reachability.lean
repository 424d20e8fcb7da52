import NvmMalloc.IdSpec

/-!
# The invariant over whole histories

`SysInv` holds in every state between two calls of a process that started on an empty heap, and every
crash inside a call leaves an image in which the heap is still laid out and the regions the call must
not lose are marked allocated.
-/

namespace NvmMalloc

open Memory CrashM

/-- The process, its object table and the ledger are in order. -/
def SysInv (P : Process) (s : Sys) : Prop :=
  ∃ L, ProcInv L s.w s.live ∧ TableInv s.w ∧ s.w.nvmStart = P.nvmStart

/-- The regions that a crash inside `op` must keep: those it does not free. -/
def Op.spared (s : Sys) (op : Op) : List Region :=
  match op.frees s with
  | none => s.live
  | some ptr => dropRegion ptr s.live

/-- The link words a call is asked to store. -/
def Op.links (s : Sys) : Op → List (ℕ × ℕ)
  | .activate _ l1 l2 | .free _ l1 l2 => linkWords s.w.nvmStart l1 l2
  | _ => []

/-- What the call can be blamed for. -/
def Op.blame (s : Sys) (op : Op) : Blame :=
  ⟨op.grows s, op.converts s, op.convertsLogged s, op.activatesFresh s, op.stale s, op.links s⟩

/-! ## The start -/

/-- The table of a fresh heap. -/
theorem tableInv_initial {w : World} (htables : EmptyTables w.nvm.mem)
    (hot : w.ot = emptyTable) : TableInv w := by
  have hstate : ∀ s < 1260, field w.nvm.mem (otSlotAddr s) stateF = stateNone := by
    intro s hs
    have hbounds := otSlotAddr_bounds (s := s)
    refine field_eq_zero fun x hx hx' => (htables (s / 63) (by omega)).2 x ?_ ?_ <;>
      simp only [stateF] at hx hx' <;> omega
  refine ⟨?_, fun c hc => (htables c hc).1, fun s hs => ?_, fun s hs hst => ?_⟩
  · have hno : ∀ e, ¬ w.ot.Has e := by
      rintro e ⟨b, hb⟩
      rw [hot] at hb
      exact List.not_mem_nil hb
    refine ⟨by rw [hot]; rfl, by rw [hot]; exact Nat.zero_le _,
      fun {b e} he => absurd ⟨b, he⟩ (hno e), fun b => ?_, fun he => absurd he (hno _),
      fun he => absurd he (hno _), ?_⟩
    · rw [hot]
      exact List.nodup_nil
    · rw [hot]
      exact ⟨le_rfl, by decide, rfl, rfl, fun i _ hi => absurd hi (Nat.not_lt_zero i),
        fun i j _ _ hj => absurd hj (Nat.not_lt_zero j)⟩
  · rw [hstate s hs]
    decide
  · rw [hstate s hs] at hst
    exact absurd hst (by decide)

/-- `nvm_initialize` without recovery. -/
theorem nvmInitialize_fresh_spec (P : Process) (nvm : Nvm) (junk : ℕ → List UInt8) (fuel : ℕ) :
    Spec (nvmInitialize junk fuel false) (CrashOk .growth [])
      (fun _ w => SysInv P ⟨w, []⟩ ∧ w.ot = emptyTable ∧
        ∃ L, ProcInv L w [] ∧ TableInv w ∧ ArenaInv L w.nvm.mem)
      (fun e => e = .diverges) (P.start nvm) := by
  unfold nvmInitialize
  rw [spec_bind, spec_get, spec_ite]
  refine ⟨fun _ => ?_, fun h => absurd (Or.inl rfl) h⟩
  refine Spec.bind ((nvmInitializeEmpty_spec rfl rfl rfl).mono (fun _ h => h) (fun _ _ h => h)
    fun _ h => h.elim) ?_
  rintro _ w ⟨h, htables, hstart, hot, harenas⟩
  refine (otInit_spec (fun c hc => (htables c hc).1)).mono (fun _ h => h) ?_ fun _ h => h.1
  rintro _ _ rfl
  have hempty : { w.ot with
      hashmap := fun _ => []
      totalSlotsAvailable := w.ot.totalSlotsAvailable + 1260 } = emptyTable := by
    rw [hot]
    rfl
  exact ⟨⟨_, h.setOt _, tableInv_initial htables hempty, hstart⟩, hempty,
    _, h.setOt _, tableInv_initial htables hempty, harenas⟩

/-! ## One call -/

section

variable {P : Process} {s : Sys} {B : Blame}

/-- A cut of an activation keeps every active region. -/
theorem ActivateImage.crashOk {L : Layout} {w : World} {live : List Region} {r : Region}
    {l1 l2 : Option Link} {img : Nvm} (himg : ActivateImage L w r l1 l2 img) (h : HeapInv L w live)
    (hr : r ∈ live) (hactive : r.active = false) (h1 : LinkOk live l1) (h2 : LinkOk live l2)
    (hfresh : FreshHuge w r.ptr → B.fresh) (hstale : StaleLink w r.ptr l1 l2 → B.stale)
    (hlinks : B.links = linkWords w.nvmStart l1 l2) : CrashOk B live img :=
  ⟨L, _, ActivateImage.image h hr hactive h1 h2 hfresh hstale hlinks himg⟩

/-- A cut of a free keeps every other active region. -/
theorem FreeImage.crashOk {L : Layout} {w : World} {live : List Region} {r : Region}
    {l1 l2 : Option Link} {img : Nvm} (himg : FreeImage L w r l1 l2 img) (h : HeapInv L w live)
    (h1 : LinkOk live l1) (h2 : LinkOk live l2) (hlinks : B.links = linkWords w.nvmStart l1 l2) :
    CrashOk B (dropRegion r.ptr live) img :=
  ⟨L, _, FreeImage.image h h1 h2 hlinks himg⟩

theorem linkOk_none (live : List Region) : LinkOk live none := by simp [LinkOk]

/-- The slots lie behind the headers of the chunks. -/
theorem FreshHuge.of_slot {w : World} {m : Mem} {ptr n : ℕ} (h : FreshHuge (w.setMem m) ptr)
    (hoff : EqOff w.nvm.mem m (otSlotAddr n) 64) : FreshHuge w ptr := by
  obtain ⟨hmod, hstate⟩ := h
  have hbounds := otSlotAddr_bounds (s := n)
  have heq : field m (ptr - headerSize) stateF = field w.nvm.mem (ptr - headerSize) stateF := by
    refine field_congr fun x hx hx' => hoff x ?_
    simp only [stateF, chunkSize, headerSize] at hx hx' hmod
    omega
  exact ⟨hmod, heq ▸ hstate⟩

/-- A cut of an activation by identifier keeps every active region. -/
theorem ActivateIdImage.crashOk {L : Layout} {w : World} {live : List Region} {r : Region}
    {e : OtEntry} {img : Nvm} (himg : ActivateIdImage L w live r e img) (h : ProcInv L w live)
    (hs : e.slot < 1260) (haddr : e.nvmEntry = otSlotAddr e.slot) (hr : r ∈ live)
    (hptr : r.ptr = e.dataPtr) (hactive : r.active = false) (hfresh : FreshHuge w r.ptr → B.fresh)
    (hlinks : B.links = []) : CrashOk B live img := by
  cases himg with
  | start => exact h.toHeapInv.crashOk B
  | writing hoff hst =>
    refine (h.setSlot hs (haddr ▸ hoff) fun hst' => ?_).toHeapInv.crashOk B
    rw [← haddr, hst] at hst'
    exact absurd hst' (by decide)
  | @region m img hoff hst hnvm himg =>
    have hset := h.setSlot hs (haddr ▸ hoff) fun _ => by
      rw [← haddr, hnvm.ptr, ← hptr]
      exact h.logged_ptr hr
    refine himg.crashOk hset.toHeapInv hr hactive (linkOk_none _) (linkOk_none _) ?_
      (fun hstale => absurd hstale.1 (by simp)) hlinks
    exact fun hf => hfresh (hf.of_slot (haddr ▸ hoff))
  | done h' ht' hot hst =>
    obtain ⟨L, p, hinv, hkept, hblames⟩ := h'.toHeapInv.crashOk B
    refine ⟨L, p, hinv, fun r' hr' hactive' => hkept r' (mem_setActive.mpr ?_) hactive', hblames⟩
    by_cases hptr : r'.ptr = r.ptr
    · exact Or.inr ⟨r', hr', hptr, by rw [← hactive']⟩
    · exact Or.inl ⟨hptr, hr'⟩

/-- A cut of a free by identifier keeps every other active region. -/
theorem FreeIdImage.crashOk {L : Layout} {w : World} {live : List Region} {r : Region}
    {e : OtEntry} {img : Nvm} (himg : FreeIdImage L w r e img) (h : ProcInv L w live)
    (hs : e.slot < 1260) (haddr : e.nvmEntry = otSlotAddr e.slot) (hlinks : B.links = []) :
    CrashOk B (dropRegion r.ptr live) img := by
  cases himg with
  | start => exact FreeImage.start.crashOk h.toHeapInv (linkOk_none _) (linkOk_none _) hlinks
  | region hoff hst himg =>
    refine himg.crashOk (h.setSlot hs (haddr ▸ hoff) fun hst' => ?_).toHeapInv (linkOk_none _)
      (linkOk_none _) hlinks
    rw [← haddr, hst] at hst'
    exact absurd hst' (by decide)

/-- A write into granted memory leaves the header pages alone. -/
theorem untouched_write {L : Layout} (h : ProcInv L s.w s.live) {addr v : ℕ}
    (hg : Granted s.live addr 1) : Untouched s.w (s.w.setMem (store s.w.nvm.mem addr 1 v)) := by
  refine ⟨rfl, rfl, rfl, fun c hc => (store_eqOff s.w.nvm.mem addr 1 v).eqOn ?_⟩
  have hd := (h.live.body hg).disjoint_arena h.nvm.ok (h.nvm.base c hc)
  omega

/-- A write into granted memory. -/
theorem write_spec {L : Layout} (hproc : ProcInv L s.w s.live) (ht : TableInv s.w) {addr : ℕ} {b : UInt8}
    (hg : Granted s.live addr 1) :
    Spec (storeAt addr 1 b.toNat) (CrashOk B s.live)
      (fun _ w' => ProcInv L w' s.live ∧ TableInv w' ∧ w'.nvmStart = s.w.nvmStart ∧
        Evolves True L s.w.nvm.mem L w'.nvm.mem) (fun _ => False) s.w := by
  have hbody := hproc.live.body hg
  have hoff := store_eqOff s.w.nvm.mem addr 1 b.toNat
  have hheap := hproc.toHeapInv.body hbody hoff
  rw [spec_storeAt]
  exact ⟨hheap.crashOk B, ⟨hheap, hproc.owned, hproc.bins, hproc.version⟩,
    ht.of_untouched (untouched_write hproc hg), rfl, .body hproc.nvm.ok hbody hoff⟩

end

/-- What one call does: the layout evolves, the ledger moves as `Op.ledger` says, and a crash keeps the
spared regions. -/
theorem op_evolves {L : Layout} {s : Sys} (hproc : ProcInv L s.w s.live) (ht : TableInv s.w) {op : Op}
    (hvalid : op.Valid s) :
    Spec op.prog (CrashOk (op.blame s) (op.spared s))
      (fun res w' => ∃ L', ProcInv L' w' (op.ledger s res) ∧ TableInv w' ∧
        w'.nvmStart = s.w.nvmStart ∧
        Evolves (∀ a, op.addsChunk s = some a → a = 0) L s.w.nvm.mem L' w'.nvm.mem)
      (fun e => e = .exit ∨ e = .diverges) s.w := by
  cases op with
  | reserve a nBytes =>
    obtain ⟨ha, hn, hmax⟩ := hvalid
    refine (nvmReserve_spec (B := (Op.reserve a nBytes).blame s) hproc ha hn hmax id fun x hx =>
      ⟨⟨x, hx⟩, fun i hi hlog => ⟨x, hx, i, hi, hlog⟩⟩).mono (fun _ h => h) ?_ fun _ h => Or.inl h
    rintro _ w' ⟨L', ptr, rfl, hproc', hu, hevolves⟩
    exact ⟨L', hproc', ht.of_untouched hu, hu.nvmStart,
      hevolves.imp fun hkeeps hlarge hgrows => hkeeps a (if_pos ⟨hlarge, hgrows⟩)⟩
  | activate ptr l1 l2 =>
    obtain ⟨⟨r, hr, rfl, hactive⟩, h1, h2⟩ := hvalid
    refine Spec.bind ((nvmActivate_spec hproc hr hactive h1 h2).mono
      (fun img himg => himg.crashOk hproc.toHeapInv hr hactive h1 h2 id id rfl) (fun _ _ h => h)
      fun _ h => h.elim) ?_
    rintro _ w' ⟨L', hproc', hu, hevolves⟩
    exact spec_pure.mpr ⟨L', hproc', ht.of_untouched hu, hu.nvmStart, hevolves.imp fun _ => trivial⟩
  | free ptr l1 l2 =>
    obtain ⟨⟨r, hr, rfl, hactive⟩, h1, h2⟩ := hvalid
    refine Spec.bind ((nvmFree_spec hproc hr hactive h1 h2).mono
      (fun img himg => himg.crashOk hproc.toHeapInv h1 h2 rfl) (fun _ _ h => h) fun _ h => h.elim) ?_
    rintro _ w' ⟨L', hproc', hu, hevolves⟩
    exact spec_pure.mpr ⟨L', hproc', ht.of_untouched hu, hu.nvmStart, hevolves.imp fun _ => trivial⟩
  | write addr b =>
    refine Spec.bind ((write_spec hproc ht hvalid).mono (fun _ h => h)
      (fun _ _ h => h) fun _ h => h.elim) ?_
    rintro _ w' ⟨hproc', ht', hstart, hevolves⟩
    exact spec_pure.mpr ⟨L, hproc', ht', hstart, hevolves.imp fun _ => trivial⟩
  | reserveId id a nBytes =>
    obtain ⟨hnul, ha, hn, hmax⟩ := hvalid
    refine (nvmReserveId_spec (B := (Op.reserveId id a nBytes).blame s) hproc ht hnul ha hn hmax
      And.intro fun hnone x hx => ⟨⟨hnone, x, hx⟩, fun i hi hlog =>
        ⟨hnone, x, hx, i, hi, hlog⟩⟩).mono (fun _ h => h) ?_ fun _ h => Or.inl h
    rintro _ w' ⟨ht', hstart, -, ⟨rfl, L', hproc', hevolves⟩ | ⟨ptr, rfl, L', hproc', hevolves⟩⟩
    all_goals
      exact ⟨L', hproc', ht', hstart, hevolves.imp fun hkeeps hnone hlarge hgrows =>
        hkeeps a (if_pos ⟨hnone, hlarge, hgrows⟩)⟩
  | activateId id =>
    obtain ⟨-, hout⟩ := hvalid
    cases hget : otGet s.w.ot id with
    | none =>
      simp only [Op.prog, nvmActivateId, spec_bind, spec_get, hget, spec_pure, Op.ledger]
      exact ⟨L, hproc, ht, trivial, .refl _ _ _⟩
    | some e =>
      obtain ⟨r, hr, hptr, hactive⟩ := hout e hget
      have hentry := ht.ot.entry (otGet_has hget).1
      refine Spec.bind ((nvmActivateId_spec hproc ht hget hr hptr hactive).mono
        (fun img himg => himg.crashOk hproc (lt_of_lt_of_le hentry.slot ht.ot.next) hentry.addr hr
          hptr hactive (fun hfresh => ⟨e, hget, hptr ▸ hfresh⟩) rfl) (fun _ _ h => h)
          fun _ h => h.elim) ?_
      rintro _ w' ⟨L', hproc', ht', hstart, -, hevolves⟩
      rw [hptr] at hproc'
      rw [spec_pure, Op.ledger, hget]
      exact ⟨L', hproc', ht', hstart, hevolves.imp fun _ => trivial⟩
  | freeId id =>
    obtain ⟨-, hout⟩ := hvalid
    cases hget : otGet s.w.ot id with
    | none =>
      simp only [Op.prog, nvmFreeId, spec_bind, spec_get, hget, spec_pure, Op.ledger]
      exact ⟨L, hproc, ht, trivial, .refl _ _ _⟩
    | some e =>
      obtain ⟨r, hr, hptr, hactive⟩ := hout e hget
      have hentry := ht.ot.entry (otGet_has hget).1
      have hspared : Op.spared s (.freeId id) = dropRegion r.ptr s.live := by
        simp only [Op.spared, Op.frees, nvmGetId, hget, Option.map_some, hptr]
      rw [hspared]
      refine Spec.bind ((nvmFreeId_spec hproc ht hget hr hptr hactive).mono
        (fun img himg => himg.crashOk hproc (lt_of_lt_of_le hentry.slot ht.ot.next) hentry.addr rfl)
        (fun _ _ h => h) fun _ h => Or.inr h) ?_
      rintro _ w' ⟨L', hproc', ht', hstart, -, hevolves⟩
      rw [hptr] at hproc'
      rw [spec_pure, Op.ledger, hget]
      exact ⟨L', hproc', ht', hstart, hevolves.imp fun _ => trivial⟩

/-- What one call does to the invariant. -/
theorem op_spec {P : Process} {s : Sys} (h : SysInv P s) {op : Op} (hvalid : op.Valid s) :
    Spec op.prog (CrashOk (op.blame s) (op.spared s)) (fun res w' => SysInv P ⟨w', op.ledger s res⟩)
      (fun e => e = .exit ∨ e = .diverges) s.w := by
  obtain ⟨L, hproc, ht, hstart⟩ := h
  refine (op_evolves hproc ht hvalid).imp ?_
  rintro res w' ⟨L', hproc', ht', hstart', -⟩
  exact ⟨L', hproc', ht', hstart'.trans hstart⟩

/-! ## Whole histories -/

section

variable {P : Process} {s : Sys} {op : Op} {img : Nvm}

/-- **The invariant holds between any two calls.** -/
theorem sysInv_of_reachable (hs : Reachable P s) : SysInv P s := by
  induction hs with
  | start hinit => exact ((nvmInitialize_fresh_spec P _ _ _).result hinit).1
  | step _ hstep ih =>
    obtain ⟨hvalid, hrun⟩ := hstep
    exact (op_spec ih hvalid).result hrun

/-- Before the call nothing is lost either. -/
theorem SysInv.crashOk (h : SysInv P s) (op : Op) : CrashOk (op.blame s) (op.spared s) s.w.nvm := by
  obtain ⟨L, hproc, -⟩ := h
  obtain ⟨L, p, hinv, hkept, hblames⟩ := hproc.toHeapInv.crashOk (op.blame s)
  refine ⟨L, p, hinv, fun r hr hactive => hkept r ?_ hactive, hblames⟩
  unfold Op.spared at hr
  split at hr
  · exact hr
  · exact (mem_dropRegion.mp hr).1

/-- **A crash inside a call keeps every region that the call does not free.** -/
theorem crashOk_of_cut (hs : Reachable P s) (hvalid : op.Valid s) (himg : img ∈ cuts op.prog s.w) :
    CrashOk (op.blame s) (op.spared s) img :=
  (op_spec (sysInv_of_reachable hs) hvalid).cuts ((sysInv_of_reachable hs).crashOk op) himg

/-- **Every crash leaves a heap that is laid out.** -/
theorem exists_imgInv (himg : CrashImage P img) : ∃ L p₀, ImgInv L p₀ img := by
  cases himg with
  | @start nvm img fuel himg =>
    obtain ⟨e, he, heq⟩ := List.mem_filterMap.mp himg
    obtain ⟨L, p₀, hinv, -⟩ := (nvmInitialize_fresh_spec P nvm P.junk fuel).1 e he img heq
    exact ⟨L, p₀, hinv⟩
  | call hs hvalid himg =>
    obtain ⟨L, p₀, hinv, -⟩ := crashOk_of_cut hs hvalid himg
    exact ⟨L, p₀, hinv⟩

end

end NvmMalloc
