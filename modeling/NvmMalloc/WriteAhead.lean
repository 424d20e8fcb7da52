import NvmMalloc.Reachability
import NvmMalloc.Lib.Persistency

/-!
# Write-ahead order under cache-line persistency

Reference: `src/nvm_malloc.c` (`nvm_activate`, `nvm_free`), `src/arena.c` (`arena_free`), `src/util.h`
(`PERSIST`).

A link word may only reach NVM when the header that would make recovery complete the call has.  Between
the store of the committed state and the store of the first link word there is only an `sfence`, which
flushes nothing, so the link word can overtake the header line: whenever a call is given a first link,
some crash image has the new word behind a header that does not know of it.
-/

namespace NvmMalloc

open Memory CrashM Persistency

/-! ## Traces of a process -/

/-- What an event means for the lines of the backing file. -/
def Event.moment? : Event → Option Moment
  | .store _ _ img => some (.seen img.mem)
  | .storeMeta img => some (.seen img.mem)
  | .persist addr len => some (.flush addr len)
  | .persistMeta => none

/-- The trace that the events of a call add. -/
def moments (es : List Event) : List Moment := es.filterMap Event.moment?

/-- The states between the calls of one process that started on an empty heap, with the contents of the
backing file before `nvm_initialize` and the trace since then.  Each call is closed with what the
processor sees when it returns. -/
inductive Traced (P : Process) : Mem → List Moment → Sys → Prop where
  | start {nvm : Nvm} {fuel : ℕ} {w : World}
      (hinit : (nvmInitialize P.junk fuel false (P.start nvm)).2 = .ok ((), w)) :
      Traced P nvm.mem
        (moments (nvmInitialize P.junk fuel false (P.start nvm)).1 ++ [.seen w.nvm.mem]) ⟨w, []⟩
  | step {m₀ : Mem} {tr : List Moment} {s s' : Sys} {op : Op} (hs : Traced P m₀ tr s)
      (hstep : Step s op s') :
      Traced P m₀ (tr ++ moments (op.prog s.w).1 ++ [.seen s'.w.nvm.mem]) s'

theorem Traced.reachable {P : Process} {m₀ : Mem} {tr : List Moment} {s : Sys}
    (h : Traced P m₀ tr s) : Reachable P s := by
  induction h with
  | start hinit => exact .start hinit
  | step _ hstep ih => exact ih.step hstep

/-- Every reachable state has a trace. -/
theorem Reachable.traced {P : Process} {s : Sys} (h : Reachable P s) : ∃ m₀ tr, Traced P m₀ tr s := by
  induction h with
  | start hinit => exact ⟨_, _, .start hinit⟩
  | step _ hstep ih =>
    obtain ⟨m₀, tr, htr⟩ := ih
    exact ⟨m₀, _, htr.step hstep⟩

theorem Traced.contents_eq {P : Process} {m₀ : Mem} {tr : List Moment} {s : Sys}
    (h : Traced P m₀ tr s) : contents m₀ tr = s.w.nvm.mem := by
  cases h <;> (rw [contents_append]; rfl)

/-! ## Calls with links -/

/-- The two calls that take links. -/
inductive LinkCall where
  | activate
  | free

/-- The operation of a call with links. -/
def LinkCall.op (k : LinkCall) (ptr : ℕ) (l1 l2 : Option Link) : Op :=
  match k with
  | .activate => .activate ptr l1 l2
  | .free => .free ptr l1 l2

/-- The state of a header that has committed to its links. -/
def LinkCall.transient : LinkCall → ℕ
  | .activate => stateActivating
  | .free => stateFreeing

/-- The three header protocols. -/
inductive SizeClass where
  | small
  | large
  | huge

/-- The header protocol for a pointer, as `nvm_activate` and `nvm_free` tell it. -/
def sizeClass (m : Mem) (ptr : ℕ) : SizeClass :=
  if ptr % chunkSize = headerSize then .huge
  else if getUsage (field m (ptr / blockSize * blockSize) stateF) = usageRun then .small
  else .large

/-- The usage of an allocated header. -/
def SizeClass.usage : SizeClass → ℕ
  | .small => usageRun
  | .large => usageBlock
  | .huge => usageHuge

/-- Where the header records the links. -/
def SizeClass.on : SizeClass → ℕ
  | .small => runOn
  | .large | .huge => blockOn

/-- The state in which a call leaves the header. -/
def LinkCall.final (k : LinkCall) (c : SizeClass) : ℕ :=
  match c, k with
  | .small, _ => usageRun + stateInitialized
  | c, .activate => c.usage + stateInitialized
  | _, .free => usageFree + stateInitialized

/-- The header of `ptr` is as the call leaves it; a run is told by the bit of the slot. -/
def LinkCall.Finished (k : LinkCall) (c : SizeClass) (m : Mem) (ptr : ℕ) : Prop :=
  let h := ptr / blockSize * blockSize
  field m h stateF = k.final c ∧
    (c = .small →
      (bitmapBit m h ((ptr - (h + headerSize)) / field m h nBytesF) = true ↔ k = .activate))

/-- Write-ahead order in the contents `img`: a link word with its new value stands behind a header that
has committed to it, or with which the call has finished. -/
def WriteAhead (k : LinkCall) (s : Sys) (ptr : ℕ) (l1 l2 : Option Link) (img : Mem) : Prop :=
  let c := sizeClass s.w.nvm.mem ptr
  let h := ptr / blockSize * blockSize
  ∀ x ∈ linkWords s.w.nvmStart l1 l2, load img x.1 8 = x.2 →
    (field img h stateF = c.usage + k.transient ∧ x ∈ recordedWords img h c.on) ∨
      k.Finished c img ptr

/-! ## The link word overtakes the header -/

/-- Started in `w`, `p` moves the header at `h` to `st` while memory is `m`, and its next event is the
store of the word `x`. -/
def Exposed {α : Type} (p : Prog α) (w : World) (h st : ℕ) (x : ℕ × ℕ) (m : Mem) : Prop :=
  ∃ pre post e e', (p w).1 = pre ++ e :: e' :: post ∧ contents w.nvm.mem (moments pre) = m ∧
    e.moment? = some (.seen (store m (h + stateF.off) stateF.width st)) ∧
    e'.moment? = some (.seen (store (store m (h + stateF.off) stateF.width st) x.1 8 x.2))

section

variable {α β : Type} {p : Prog α} {f : α → Prog β} {w w' : World} {h on st : ℕ} {x : ℕ × ℕ} {m : Mem}

theorem events_bind_ok {a : α} (hr : (p w).2 = .ok (a, w')) :
    ((p >>= f) w).1 = (p w).1 ++ (f a w').1 := by
  show (CrashM.bind p f w).1 = _
  unfold CrashM.bind
  rw [hr]

/-- What the first part of a program exposes. -/
theorem Exposed.bind (hp : Exposed p w h st x m) : Exposed (p >>= f) w h st x m := by
  obtain ⟨pre, post, e, e', hev, hrest⟩ := hp
  cases hr : (p w).2 with
  | error err =>
    refine ⟨pre, post, e, e', ?_, hrest⟩
    show (CrashM.bind p f w).1 = _
    unfold CrashM.bind
    rw [hr]
    exact hev
  | ok r =>
    refine ⟨pre, post ++ (f r.1 r.2).1, e, e', ?_, hrest⟩
    rw [events_bind_ok hr, hev, List.append_assoc]
    rfl

/-- What the rest of a program exposes after a part that returned. -/
theorem Exposed.after {a : α} (hr : (p w).2 = .ok (a, w'))
    (hseen : contents w.nvm.mem (moments (p w).1) = w'.nvm.mem) (hf : Exposed (f a) w' h st x m) :
    Exposed (p >>= f) w h st x m := by
  obtain ⟨pre, post, e, e', hev, hm, he, he'⟩ := hf
  refine ⟨(p w).1 ++ pre, post, e, e', ?_, ?_, he, he'⟩
  · rw [events_bind_ok hr, hev, List.append_assoc]
  · unfold moments at hseen hm ⊢
    rw [List.filterMap_append, contents_append, hseen, hm]

/-- The link protocol exposes its first link word. -/
theorem linkProtocol_exposed (w : World) (h on st : ℕ) (l : Link) (l2 : Option Link) :
    ∃ m, EqOff w.nvm.mem m (h + on) 32 ∧
      Exposed (linkProtocol h on st (some l) l2) w h st (l.word w.nvmStart) m := by
  have hrecord : ∀ (m : Mem) (k : ℕ) (y : Link), k < 2 → EqOff w.nvm.mem m (h + on) 32 →
      ∃ m', EqOff w.nvm.mem m' (h + on) 32 ∧
        (recordLink h on k y (w.setMem m)).2 = .ok ((), w.setMem m') ∧
        contents m (moments (recordLink h on k y (w.setMem m)).1) = m' := by
    intro m k y hk heq
    refine ⟨_, ?_, rfl, rfl⟩
    refine (heq.store _ ?_ ?_).store _ ?_ ?_ <;> simp only [onPtrF, onValueF] <;> omega
  obtain ⟨m₁, heq₁, hr₁, hc₁⟩ := hrecord w.nvm.mem 0 l (by omega) (EqOff.refl _ _ _)
  unfold linkProtocol
  cases l2 with
  | none => exact ⟨m₁, heq₁, .after hr₁ hc₁ ⟨[], _, _, _, rfl, rfl, rfl, rfl⟩⟩
  | some y =>
    obtain ⟨m₂, heq₂, hr₂, hc₂⟩ := hrecord m₁ 1 y (by omega) heq₁
    exact ⟨m₂, heq₂, .after hr₁ hc₁ (.after hr₂ hc₂ ⟨[], _, _, _, rfl, rfl, rfl, rfl⟩)⟩

/-- A free run is acquired with one store. -/
theorem acquireRun_ok (st : ℕ) (hst : field w.nvm.mem h stateF = usageRun + stateInitialized) :
    (acquireRun h st w).2 = .ok ((), w.setMem (store w.nvm.mem (h + stateF.off) stateF.width st)) ∧
      contents w.nvm.mem (moments (acquireRun h st w).1) =
        store w.nvm.mem (h + stateF.off) stateF.width st := by
  have hrun : acquireRun h st w = storeField h stateF st w := by
    show (ite (field w.nvm.mem h stateF = _) _ _ : Prog Unit) w = _
    rw [if_pos hst]
  rw [hrun]
  exact ⟨rfl, rfl⟩

/-- The protocol of block and huge headers. -/
theorem commitHeader_exposed (w : World) (h st final : ℕ) (l : Link) (l2 : Option Link) :
    ∃ m, EqOff w.nvm.mem m (h + blockOn) 32 ∧
      Exposed (commitHeader h st final (some l) l2) w h st (l.word w.nvmStart) m := by
  obtain ⟨m, hoff, hexp⟩ := linkProtocol_exposed w h blockOn st l l2
  exact ⟨m, hoff, hexp.bind⟩

/-- The protocol of run headers. -/
theorem commitRun_exposed (w : World) (h st i : ℕ) (mark : Prog Unit) (l : Link)
    (l2 : Option Link) :
    ∃ m, EqOff w.nvm.mem m (h + 16) 42 ∧
      Exposed (commitRun h st i mark (some l) l2) w h st (l.word w.nvmStart) m := by
  obtain ⟨m₁, hm₁⟩ : ∃ m₁, m₁ = store w.nvm.mem (h + bitIdxF.off) bitIdxF.width i := ⟨_, rfl⟩
  have heq : EqOff w.nvm.mem m₁ (h + 16) 42 := by
    rw [hm₁]
    exact (EqOff.refl _ _ _).store _ (by simp only [bitIdxF]; omega) (by simp only [bitIdxF]; omega)
  have hstore : (storeField h bitIdxF i w).2 = .ok ((), w.setMem m₁) := by
    rw [hm₁]
    rfl
  obtain ⟨m, hoff, hexp⟩ := linkProtocol_exposed (w.setMem m₁) h runOn st l l2
  refine ⟨m, heq.trans (hoff.mono (by simp only [runOn]; omega) (by simp only [runOn]; omega)), ?_⟩
  exact .after hstore hm₁.symm hexp.bind

/-- Recording links leaves the state byte. -/
theorem state_of_recorded {m m' : Mem} {a n : ℕ} (hoff : EqOff m m' (h + a) n) (ha : 1 ≤ a) :
    field m' h stateF = field m h stateF :=
  field_congr (hoff.eqOn (by simp only [stateF]; omega))

/-- A run that was acquired in state `st₀` goes through its protocol. -/
theorem acquired_exposed (w : World) (h st : ℕ) {st₀ : ℕ} (hst₀ : st₀ < 256) (i : ℕ)
    (mark : Prog Unit) (l : Link) (l2 : Option Link) :
    ∃ m, field m h stateF = st₀ ∧ Exposed (commitRun h st i mark (some l) l2)
      (w.setMem (store w.nvm.mem (h + stateF.off) stateF.width st₀)) h st (l.word w.nvmStart) m := by
  obtain ⟨m, hoff, hexp⟩ := commitRun_exposed
    (w.setMem (store w.nvm.mem (h + stateF.off) stateF.width st₀)) h st i mark l l2
  refine ⟨m, ?_, hexp⟩
  rw [state_of_recorded hoff (by decide), setMem_nvm, field_store_self]
  exact Nat.mod_eq_of_lt hst₀

/-- Activating a small region. -/
theorem nvmActivateSmall_exposed (ptr : ℕ) (l : Link) (l2 : Option Link)
    (hst : field w.nvm.mem h stateF = usageRun + stateInitialized)
    (hbytes : field w.nvm.mem h nBytesF ≠ 0) :
    ∃ m, field m h stateF = usageRun + statePreactivate ∧
      Exposed (nvmActivateSmall ptr h (some l) l2) w h (usageRun + stateActivating)
        (l.word w.nvmStart) m := by
  obtain ⟨hacq, hseen⟩ := acquireRun_ok (usageRun + statePreactivate) hst
  obtain ⟨m, hstate, hexp⟩ := acquired_exposed w h (usageRun + stateActivating)
    (show usageRun + statePreactivate < 256 by decide)
    ((ptr - (h + headerSize)) / field w.nvm.mem h nBytesF % 2 ^ 16)
    (setNvmBit h ((ptr - (h + headerSize)) / field w.nvm.mem h nBytesF % 2 ^ 16)) l l2
  refine ⟨m, hstate, ?_⟩
  refine .after rfl rfl ?_
  rw [if_neg hbytes]
  exact .after hacq hseen hexp

/-- A run that was acquired keeps its VHeader of this process. -/
theorem ensureVheader_acquired (st₀ : ℕ) (hversion : ¬ field w.nvm.mem h versionF < w.currentVersion) :
    ensureVheader h (w.setMem (store w.nvm.mem (h + stateF.off) stateF.width st₀)) =
      ([], .ok (field w.nvm.mem h vdataF,
        w.setMem (store w.nvm.mem (h + stateF.off) stateF.width st₀))) := by
  obtain ⟨w₁, hw₁⟩ : ∃ w₁, w₁ = w.setMem (store w.nvm.mem (h + stateF.off) stateF.width st₀) :=
    ⟨_, rfl⟩
  have hvdata : field w₁.nvm.mem h vdataF = field w.nvm.mem h vdataF := by
    rw [hw₁, setMem_nvm, field_store_of_ne (by decide)]
  have hversion₁ : field w₁.nvm.mem h versionF = field w.nvm.mem h versionF := by
    rw [hw₁, setMem_nvm, field_store_of_ne (by decide)]
  rw [← hw₁]
  show (ite (field w₁.nvm.mem h versionF < w₁.currentVersion) _ (pure _) : Prog ℕ) w₁ = _
  rw [if_neg (by rw [hversion₁, hw₁]; exact hversion), hvdata]
  rfl

/-- Freeing a small region whose run has a VHeader of this process. -/
theorem arenaFreeSmall_exposed (ptr : ℕ) (l : Link) (l2 : Option Link)
    (hst : field w.nvm.mem h stateF = usageRun + stateInitialized)
    (hversion : ¬ field w.nvm.mem h versionF < w.currentVersion)
    (helem : (w.vheaders (field w.nvm.mem h vdataF)).elemSize ≠ 0) :
    ∃ m, field m h stateF = usageRun + statePrefree ∧
      Exposed (arenaFreeSmall ptr h (some l) l2) w h (usageRun + stateFreeing)
        (l.word w.nvmStart) m := by
  obtain ⟨hacq, hseen⟩ := acquireRun_ok (usageRun + statePrefree) hst
  obtain ⟨w₁, hw₁⟩ : ∃ w₁, w₁ = w.setMem
      (store w.nvm.mem (h + stateF.off) stateF.width (usageRun + statePrefree)) := ⟨_, rfl⟩
  have hensure : ensureVheader h w₁ = ([], .ok (field w.nvm.mem h vdataF, w₁)) := by
    rw [hw₁]
    exact ensureVheader_acquired _ hversion
  obtain ⟨m, hstate, hexp⟩ := acquired_exposed w h (usageRun + stateFreeing)
    (show usageRun + statePrefree < 256 by decide)
    ((ptr - (h + headerSize)) / (w.vheaders (field w.nvm.mem h vdataF)).elemSize)
    (clearNvmBit h ((ptr - (h + headerSize)) / (w.vheaders (field w.nvm.mem h vdataF)).elemSize)) l l2
  rw [← hw₁] at hacq hexp
  refine ⟨m, hstate, ?_⟩
  refine .after hacq (by rw [hw₁]; exact hseen) ?_
  refine .after (by rw [hensure]) (by rw [hensure]; rfl) ?_
  refine .after rfl rfl ?_
  rw [if_neg (by rw [hw₁]; exact helem)]
  rw [hw₁] at hexp ⊢
  exact hexp.bind

end

/-! ## Every call with a link -/

section

variable {L : Layout} {w : World} {live : List Region} {p n k i ptr : ℕ} {o : Owner}

/-- How a call tells the size class of a large region. -/
theorem HeapInv.sizeClass_large (h : HeapInv L w live) (hp : L p = some (.block n o))
    (hptr : ptr = 4096 * p + 64) : sizeClass w.nvm.mem ptr = .large := by
  obtain ⟨hmod, hpage⟩ := h.large_ptr hp hptr
  obtain ⟨-, -, hst, -⟩ := h.nvm.quiet hp
  unfold sizeClass
  rw [if_neg hmod, hpage, hst, if_neg]
  cases o with
  | user b => cases b <;> decide
  | _ =>
    show getUsage (usageFree + stateInitialized) ≠ usageRun
    decide

/-- How a call tells the size class of a small region. -/
theorem HeapInv.sizeClass_small (h : HeapInv L w live) (hp : L p = some (.run k))
    (helem : 64 ≤ (w.vheaders k).elemSize) (hi : i < slotsPerRun (w.vheaders k).elemSize)
    (hptr : ptr = 4096 * p + 64 + (w.vheaders k).elemSize * i) : sizeClass w.nvm.mem ptr = .small := by
  obtain ⟨hmod, hpage⟩ := h.small_ptr hp helem hi hptr
  obtain ⟨-, hst, -⟩ : Quiet w.nvm.mem p (.run k) := h.nvm.quiet hp
  unfold sizeClass
  rw [if_neg hmod, hpage, hst, if_pos (by decide)]

end

/-- The call stores the word of its first link while the header line may still say `m`: neither committed
nor finished. -/
structure Overtaken (k : LinkCall) (s : Sys) (ptr : ℕ) (l : Link) (l2 : Option Link) (p : ℕ) (m : Mem) :
    Prop where
  page : ptr / blockSize * blockSize = 4096 * p
  exposed : Exposed (k.op ptr (some l) l2).prog s.w (4096 * p)
    ((sizeClass s.w.nvm.mem ptr).usage + k.transient) (l.word s.w.nvmStart) m
  committed : field m (4096 * p) stateF ≠ (sizeClass s.w.nvm.mem ptr).usage + k.transient
  final : field m (4096 * p) stateF ≠ k.final (sizeClass s.w.nvm.mem ptr)

section

variable {L : Layout} {s : Sys} {r : Region} {l : Link} {l2 : Option Link}

theorem activate_overtaken (h : ProcInv L s.w s.live) (hr : r ∈ s.live) (hactive : r.active = false) :
    ∃ p t m, L p = some t ∧ Overtaken .activate s r.ptr l l2 p m := by
  -- the log entry goes to the meta file
  have hlog : ∃ w', (logActivate r.ptr s.w).2 = .ok ((), w') ∧
      contents s.w.nvm.mem (moments (logActivate r.ptr s.w).1) = w'.nvm.mem ∧
      w'.nvm.mem = s.w.nvm.mem ∧ w'.nvmStart = s.w.nvmStart := ⟨_, rfl, rfl, rfl, rfl⟩
  obtain ⟨w₁, hret, hseen, hmem, hstart⟩ := hlog
  cases h.live.placed r hr with
  | @huge hlo p htile hptr =>
    rw [hactive] at htile
    obtain ⟨hmod, hh⟩ := h.huge_ptr htile hptr
    have hclass : sizeClass s.w.nvm.mem r.ptr = .huge := if_pos hmod
    have hst : hugeState (.user false) (field s.w.nvm.mem (4096 * p) stateF) := (h.nvm.quiet htile).2.1
    obtain ⟨m, hoff, hexp⟩ := commitHeader_exposed w₁ (4096 * p) (usageHuge + stateActivating)
      (usageHuge + stateInitialized) l l2
    rw [hmem] at hoff
    refine ⟨p, _, m, htile, ?_, ?_, ?_, ?_⟩
    · simp only [hptr, blockSize]
      omega
    · rw [hclass, ← hstart]
      refine Exposed.bind (.after hret hseen ?_)
      rw [if_pos hmod, hh]
      exact hexp
    · rw [hclass, state_of_recorded hoff (by decide)]
      rcases hst with hst | hst <;> rw [hst] <;> decide
    · rw [hclass, state_of_recorded hoff (by decide)]
      rcases hst with hst | hst <;> rw [hst] <;> decide
  | @large hlo hhi p htile hptr =>
    rw [hactive] at htile
    obtain ⟨hmod, hpage⟩ := h.large_ptr htile hptr
    obtain ⟨-, -, hst, -⟩ := h.nvm.quiet htile
    have hclass := h.sizeClass_large htile hptr
    obtain ⟨m, hoff, hexp⟩ := commitHeader_exposed w₁ (4096 * p) (usageBlock + stateActivating)
      (usageBlock + stateInitialized) l l2
    rw [hmem] at hoff
    refine ⟨p, _, m, htile, hpage, ?_, ?_, ?_⟩
    · rw [hclass, ← hstart]
      refine Exposed.bind (.after hret hseen ?_)
      rw [if_neg hmod, hpage]
      refine .after rfl rfl ?_
      rw [hmem, hst, if_pos (by decide)]
      exact hexp
    · rw [hclass, state_of_recorded hoff (by decide), hst]
      decide
    · rw [hclass, state_of_recorded hoff (by decide), hst]
      decide
  | @small hsize p k i htile helem hi hptr hbit hnvm =>
    have helem64 := le_elemSize (h.live.size r hr).1 helem
    obtain ⟨hmod, hpage⟩ := h.small_ptr htile helem64 hi hptr
    obtain ⟨-, hst, -⟩ : Quiet s.w.nvm.mem p (.run k) := h.nvm.quiet htile
    have hclass := h.sizeClass_small htile helem64 hi hptr
    have hbytes : field s.w.nvm.mem (4096 * p) nBytesF ≠ 0 := by
      rw [← (h.runs.run htile).2.elemSize]
      omega
    obtain ⟨m, hstate, hexp⟩ := nvmActivateSmall_exposed (w := w₁) (h := 4096 * p) r.ptr l l2
      (by rw [hmem]; exact hst) (by rw [hmem]; exact hbytes)
    refine ⟨p, _, m, htile, hpage, ?_, ?_, ?_⟩
    · rw [hclass, ← hstart]
      refine Exposed.bind (.after hret hseen ?_)
      rw [if_neg hmod, hpage]
      refine .after rfl rfl ?_
      rw [hmem, hst, if_neg (by decide)]
      exact hexp
    · rw [hclass, hstate]
      decide
    · rw [hclass, hstate]
      decide

theorem free_overtaken (h : ProcInv L s.w s.live) (hr : r ∈ s.live) (hactive : r.active = true) :
    ∃ p t m, L p = some t ∧ Overtaken .free s r.ptr l l2 p m := by
  cases h.live.placed r hr with
  | @huge hlo p htile hptr =>
    rw [hactive] at htile
    obtain ⟨hmod, hh⟩ := h.huge_ptr htile hptr
    have hclass : sizeClass s.w.nvm.mem r.ptr = .huge := if_pos hmod
    have hst : field s.w.nvm.mem (4096 * p) stateF = usageHuge + stateInitialized :=
      (h.nvm.quiet htile).2.1
    obtain ⟨m, hoff, hexp⟩ := commitHeader_exposed s.w (4096 * p) (usageHuge + stateFreeing)
      (usageFree + stateInitialized) l l2
    refine ⟨p, _, m, htile, ?_, ?_, ?_, ?_⟩
    · simp only [hptr, blockSize]
      omega
    · rw [hclass]
      apply Exposed.bind
      unfold nvmFree
      rw [if_pos hmod, hh]
      exact .after rfl rfl hexp.bind
    · rw [hclass, state_of_recorded hoff (by decide), hst]
      decide
    · rw [hclass, state_of_recorded hoff (by decide), hst]
      decide
  | @large hlo hhi p htile hptr =>
    rw [hactive] at htile
    obtain ⟨hmod, hpage⟩ := h.large_ptr htile hptr
    obtain ⟨-, harena, hst, -⟩ := h.nvm.quiet htile
    have hclass := h.sizeClass_large htile hptr
    obtain ⟨m, hoff, hexp⟩ := commitHeader_exposed s.w (4096 * p) (usageBlock + stateFreeing)
      (usageFree + stateInitialized) l l2
    have hb : arenaCreateBlockHeader (4096 * p) s.w =
        (pure ⟨4096 * p, field s.w.nvm.mem (4096 * p) nPagesF % 2 ^ 16,
          field s.w.nvm.mem (4096 * p) blockArenaIdF⟩ : Prog ArenaBlock) s.w := by
      show (ite (field s.w.nvm.mem (4096 * p) blockArenaIdF < initialArenas) _ _ : Prog _) s.w = _
      rw [if_pos harena]
    refine ⟨p, _, m, htile, hpage, ?_, ?_, ?_⟩
    · rw [hclass]
      apply Exposed.bind
      unfold nvmFree arenaFree
      rw [if_neg hmod, hpage]
      refine .after rfl rfl ?_
      rw [hst, if_pos (by decide)]
      exact .after (by rw [hb]; rfl) (by rw [hb]; rfl) hexp.bind
    · rw [hclass, state_of_recorded hoff (by decide), hst]
      decide
    · rw [hclass, state_of_recorded hoff (by decide), hst]
      decide
  | @small hsize p k i htile helem hi hptr hbit hnvm =>
    have helem64 := le_elemSize (h.live.size r hr).1 helem
    obtain ⟨hmod, hpage⟩ := h.small_ptr htile helem64 hi hptr
    obtain ⟨-, hst, -⟩ : Quiet s.w.nvm.mem p (.run k) := h.nvm.quiet htile
    have hclass := h.sizeClass_small htile helem64 hi hptr
    have hvdata : field s.w.nvm.mem (4096 * p) vdataF = k := (h.runs.run htile).2.vdata
    obtain ⟨m, hstate, hexp⟩ := arenaFreeSmall_exposed r.ptr l l2 hst
      (by rw [h.version]; omega) (by rw [hvdata]; omega)
    refine ⟨p, _, m, htile, hpage, ?_, ?_, ?_⟩
    · rw [hclass]
      apply Exposed.bind
      unfold nvmFree arenaFree
      rw [if_neg hmod, hpage]
      refine .after rfl rfl ?_
      rw [hst, if_neg (by decide), if_pos (by decide)]
      exact hexp
    · rw [hclass, hstate]
      decide
    · rw [hclass, hstate]
      decide

end

/-! ## Write-ahead order -/

section

variable {P : Process} {m₀ : Mem} {tr : List Moment} {s : Sys} {k : LinkCall} {ptr : ℕ}

/-- The image with all stores up to the first link word, the header line held back. -/
theorem Overtaken.lineImage {l : Link} {l2 : Option Link} {p : ℕ} {m : Mem}
    (h : Overtaken k s ptr l l2 p m) (hseen : contents m₀ tr = s.w.nvm.mem)
    (hout : Outside [l.word s.w.nvmStart] (4096 * p) 64) :
    ∃ n, LineImage P.nvmStart m₀ (tr ++ moments (((k.op ptr (some l) l2).prog s.w).1.take n))
      (Memory.storeWords m [l.word s.w.nvmStart]) := by
  obtain ⟨pre, post, e, e', hev, hm, he, he'⟩ := h.exposed
  obtain ⟨mc, hmc⟩ : ∃ mc, mc = store m (4096 * p + stateF.off) stateF.width
    ((sizeClass s.w.nvm.mem ptr).usage + k.transient) := ⟨_, rfl⟩
  have hstate : EqOff m mc (4096 * p) 64 := by
    rw [hmc]
    exact (EqOff.refl _ _ _).store _ (by omega) (by simp only [stateF]; omega)
  rw [← hmc] at he he'
  refine ⟨pre.length + 2, ?_⟩
  have htake : ((k.op ptr (some l) l2).prog s.w).1.take (pre.length + 2) = pre ++ [e, e'] := by
    rw [hev, List.take_length_add_append]
    rfl
  have hmoments : moments (pre ++ [e, e']) = moments pre ++ moments [e, e'] := List.filterMap_append
  have hlast : moments [e, e'] =
      [.seen mc, .seen (Memory.storeWords mc [l.word s.w.nvmStart])] := by
    unfold moments
    rw [List.filterMap_cons_some he, List.filterMap_cons_some he', List.filterMap_nil]
    rfl
  have hpre : contents m₀ (tr ++ moments pre) = m := by
    rw [contents_append, hseen, hm]
  rw [htake, hmoments, hlast, ← List.append_assoc]
  apply LineImage.hold_back (l := 64 * p)
  · simp [Moment.Flushes]
  · rw [hpre, show 64 * (64 * p) = 4096 * p by omega]
    exact hout.eqOn m
  · rw [contents_append, show 64 * (64 * p) = 4096 * p by omega]
    exact fun x hx => (hstate.storeWords [l.word s.w.nvmStart] x hx).symm

/-- That image breaks write-ahead order. -/
theorem Overtaken.not_writeAhead {l : Link} {l2 : Option Link} {p : ℕ} {m : Mem}
    (h : Overtaken k s ptr l l2 p m) (hout : Outside [l.word s.w.nvmStart] (4096 * p) 64) :
    ¬ WriteAhead k s ptr (some l) l2 (Memory.storeWords m [l.word s.w.nvmStart]) := by
  intro hwa
  have hmem : l.word s.w.nvmStart ∈ linkWords s.w.nvmStart (some l) l2 := by
    cases l2 <;> exact List.mem_cons_self
  have hword : load (Memory.storeWords m [l.word s.w.nvmStart]) (l.word s.w.nvmStart).1 8 =
      (l.word s.w.nvmStart).2 := by
    rw [storeWords_cons, storeWords_nil, load_store_same]
    exact Nat.mod_eq_of_lt absToRelWithNull_lt
  have hstate : field (Memory.storeWords m [l.word s.w.nvmStart]) (4096 * p) stateF =
      field m (4096 * p) stateF :=
    field_eqOn (hout.eqOn m) (by decide)
  rcases hwa _ hmem hword with ⟨hcommitted, -⟩ | ⟨hfinal, -⟩
  · rw [h.page, hstate] at hcommitted
    exact h.committed hcommitted
  · rw [h.page, hstate] at hfinal
    exact h.final hfinal

/-- A call with a first link has an image that breaks write-ahead order. -/
theorem exists_overtaking_image {l : Link} {l2 : Option Link} (htr : Traced P m₀ tr s)
    (hvalid : (k.op ptr (some l) l2).Valid s) :
    ∃ n img, LineImage P.nvmStart m₀
      (tr ++ moments (((k.op ptr (some l) l2).prog s.w).1.take n)) img ∧
      ¬ WriteAhead k s ptr (some l) l2 img := by
  obtain ⟨L, hinv, -, -⟩ := sysInv_of_reachable htr.reachable
  have hlink : LinkOk s.live (some l) := by cases k <;> exact hvalid.2.1
  obtain ⟨p, t, m, hp, hover⟩ : ∃ p t m, L p = some t ∧ Overtaken k s ptr l l2 p m := by
    cases k with
    | activate =>
      obtain ⟨r, hr, rfl, hactive⟩ := hvalid.1
      exact activate_overtaken hinv hr hactive
    | free =>
      obtain ⟨r, hr, rfl, hactive⟩ := hvalid.1
      exact free_overtaken hinv hr hactive
  have hout : Outside [l.word s.w.nvmStart] (4096 * p) 64 :=
    (hinv.live.linkWords s.w.nvmStart hlink (linkOk_none _)).outside hinv.nvm.ok hp
  obtain ⟨n, himg⟩ := hover.lineImage htr.contents_eq hout
  exact ⟨n, _, himg, hover.not_writeAhead hout⟩

/-- **Write-ahead order holds for the calls without links, and for no other call.** -/
theorem write_ahead_iff {l1 l2 : Option Link} (htr : Traced P m₀ tr s)
    (hvalid : (k.op ptr l1 l2).Valid s) :
    (∀ n img, LineImage P.nvmStart m₀ (tr ++ moments (((k.op ptr l1 l2).prog s.w).1.take n)) img →
      WriteAhead k s ptr l1 l2 img) ↔ l1 = none := by
  constructor
  · intro hall
    cases l1 with
    | none => rfl
    | some l =>
      obtain ⟨n, img, himg, hnot⟩ := exists_overtaking_image htr hvalid
      exact absurd (hall n img himg) hnot
  · rintro rfl n img - x hx
    exact absurd hx (by simp [linkWords])

end

/-- An activation without links in the first process. -/
theorem write_ahead_without_links : ∃ m₀ tr s, Traced sampleProcess m₀ tr s ∧
    (LinkCall.activate.op 4190272 none none).Valid s ∧
    ∀ n img, LineImage sampleProcess.nvmStart m₀
      (tr ++ moments (((LinkCall.activate.op 4190272 none none).prog s.w).1.take n)) img →
      WriteAhead .activate s 4190272 none none img := by
  have hany : ((sampleHistory [.reserve 0 100]).any fun s =>
      decide ((LinkCall.activate.op 4190272 none none).Valid s)) = true := by decide +kernel
  obtain ⟨s, hs, hvalid⟩ := Process.exists_reachable hany
  obtain ⟨m₀, tr, htr⟩ := hs.traced
  have hvalid := of_decide_eq_true hvalid
  exact ⟨m₀, tr, s, htr, hvalid, (write_ahead_iff htr hvalid).mpr rfl⟩

/-- The first object of a process, linked from itself: its link word overtakes its header. -/
theorem link_word_overtakes_header : ∃ m₀ tr s, Traced sampleProcess m₀ tr s ∧
    (LinkCall.activate.op 4190272 (some ⟨4190272, 4100190272⟩) none).Valid s ∧
    ∃ n img, LineImage sampleProcess.nvmStart m₀ (tr ++ moments
      (((LinkCall.activate.op 4190272 (some ⟨4190272, 4100190272⟩) none).prog s.w).1.take n)) img ∧
      ¬ WriteAhead .activate s 4190272 (some ⟨4190272, 4100190272⟩) none img := by
  have hany : ((sampleHistory [.reserve 0 100]).any fun s =>
      decide ((LinkCall.activate.op 4190272 (some ⟨4190272, 4100190272⟩) none).Valid s)) = true := by
    decide +kernel
  obtain ⟨s, hs, hvalid⟩ := Process.exists_reachable hany
  obtain ⟨m₀, tr, htr⟩ := hs.traced
  have hvalid := of_decide_eq_true hvalid
  exact ⟨m₀, tr, s, htr, hvalid, exists_overtaking_image htr hvalid⟩

end NvmMalloc
