import NvmMalloc.Durability
import NvmMalloc.Capacity
import NvmMalloc.Frame

/-!
# What a call does with its links

Reference: `src/nvm_malloc.c` (`nvm_activate`, `nvm_free`), `src/arena.c` (`arena_free`), `README.md`
(link pointers).

An activation and a free store the targets of their links, relative to `nvm_start`, and change nothing
else on NVM than the header of the object and, for an activation, one slot of the log.  The link words
may lie anywhere apart from the metadata of the allocator, not only in memory of the client.  The second
link is looked at only if there is a first one.
-/

namespace NvmMalloc

open Memory CrashM

/-! ## Arguments and effect -/

/-- The word at offset `a` lies in the mapped chunks and holds no byte of a header, of a header page
or of the object table. -/
structure OffMetadata (nvm : Nvm) (a : ℕ) : Prop where
  inNvm : a + 8 ≤ chunkSize * nvm.nextChunk
  headerPage : ∀ c ∈ arenaChunks nvm, Apart a 8 (4194304 * c) 4096
  hugeHeader : ∀ c ∈ chunkHeaders nvm, Apart a 8 (4194304 * c) headerSize
  pageHeader : ∀ c ∈ arenaChunks nvm, ∀ p ∈ pageHeaders nvm.mem c, Apart a 8 (4096 * p) headerSize

/-- The links of a call: distinct words apart from the metadata. -/
structure LinkArgs (nvm : Nvm) (l1 l2 : Option Link) : Prop where
  first : ∀ x ∈ l1, OffMetadata nvm x.ptr
  second : ∀ x ∈ l2, OffMetadata nvm x.ptr
  distinct : ∀ x ∈ l1, ∀ y ∈ l2, Apart x.ptr 8 y.ptr 8

instance (nvm : Nvm) (a : ℕ) : Decidable (OffMetadata nvm a) :=
  decidable_of_iff (a + 8 ≤ chunkSize * nvm.nextChunk ∧
    (∀ c ∈ arenaChunks nvm, Apart a 8 (4194304 * c) 4096) ∧
    (∀ c ∈ chunkHeaders nvm, Apart a 8 (4194304 * c) headerSize) ∧
    ∀ c ∈ arenaChunks nvm, ∀ p ∈ pageHeaders nvm.mem c, Apart a 8 (4096 * p) headerSize)
    ⟨fun ⟨h1, h2, h3, h4⟩ => ⟨h1, h2, h3, h4⟩, fun ⟨h1, h2, h3, h4⟩ => ⟨h1, h2, h3, h4⟩⟩

instance (nvm : Nvm) (l1 l2 : Option Link) : Decidable (LinkArgs nvm l1 l2) :=
  decidable_of_iff ((∀ x ∈ l1, OffMetadata nvm x.ptr) ∧ (∀ x ∈ l2, OffMetadata nvm x.ptr) ∧
    ∀ x ∈ l1, ∀ y ∈ l2, Apart x.ptr 8 y.ptr 8)
    ⟨fun ⟨h1, h2, h3⟩ => ⟨h1, h2, h3⟩, fun ⟨h1, h2, h3⟩ => ⟨h1, h2, h3⟩⟩

/-- The word of link `x` holds its target relative to `nvm_start`. -/
def Link.Holds (nvmStart : ℕ) (m : Mem) (x : Link) : Prop :=
  load m x.ptr 8 = absToRelWithNull nvmStart x.target

instance (nvmStart : ℕ) (m : Mem) (x : Link) : Decidable (x.Holds nvmStart m) :=
  inferInstanceAs (Decidable (_ = _))

/-- The log after a call. -/
def LinkCall.logAfter (k : LinkCall) (w : World) (ptr : ℕ) : ℕ → ℕ :=
  match k with
  | .activate => Function.update w.nvm.log (w.nextLogEntry % maxLogEntries) ptr
  | .free => w.nvm.log

/-- The effect of a call on NVM: every link word that was passed holds its target, and the only other
changes are in the header of the object and in the log. -/
structure LinkEffect (k : LinkCall) (w : World) (ptr : ℕ) (l1 l2 : Option Link) (nvm : Nvm) : Prop where
  written : ∀ x, x ∈ l1 ∨ x ∈ l2 → x.Holds w.nvmStart nvm.mem
  others : ∀ y, (∀ x, x ∈ l1 ∨ x ∈ l2 → y < x.ptr ∨ x.ptr + 8 ≤ y) →
    y < ptr / blockSize * blockSize ∨ ptr / blockSize * blockSize + headerSize ≤ y →
    nvm.mem y = w.nvm.mem y
  log : nvm.log = k.logAfter w ptr
  nextChunk : nvm.nextChunk = w.nvm.nextChunk
  version : nvm.version = w.nvm.version

/-! ## The other files -/

/-- The meta file and the number of chunks are those of `nvm`. -/
structure SameMeta (nvm : Nvm) (w : World) : Prop where
  log : w.nvm.log = nvm.log
  nextChunk : w.nvm.nextChunk = nvm.nextChunk
  version : w.nvm.version = nvm.version

section

variable {nvm : Nvm} {h ptr a : ℕ} {l1 l2 : Option Link}

instance : IgnoresMem (SameMeta nvm) := ⟨fun h _ => ⟨h.1, h.2, h.3⟩⟩

/-- A change of volatile memory. -/
theorem sameMeta_modify {g : World → World} (hg : ∀ w, (g w).nvm = w.nvm) :
    Preserves (SameMeta nvm) (modify g : Prog Unit) :=
  preserves_modify fun w h => by
    refine ⟨?_, ?_, ?_⟩
    · rw [hg, h.log]
    · rw [hg, h.nextChunk]
    · rw [hg, h.version]

instance {f : ArenaRun → ArenaRun} : Preserves (SameMeta nvm) (mallocRun f) := by
  have hmalloc : Preserves (SameMeta nvm) (modify fun w => { w with
      vheaders := Function.update w.vheaders w.nVheaders (f (w.vheaders w.nVheaders))
      nVheaders := w.nVheaders + 1 } : Prog Unit) :=
    sameMeta_modify fun _ => rfl
  unfold mallocRun
  infer_instance

instance {b : ArenaBlock} : Preserves (SameMeta nvm) (addFreePagerun a b) := sameMeta_modify fun _ => rfl

instance {x : Huge} : Preserves (SameMeta nvm) (addFreeChunk x) := sameMeta_modify fun _ => rfl

instance : Preserves (SameMeta nvm) (ensureVheader h) := by
  unfold ensureVheader arenaCreateRunHeader
  infer_instance

instance : Preserves (SameMeta nvm) (arenaFree ptr l1 l2) := by
  have hrelease : ∀ run j, Preserves (SameMeta nvm) (modify fun w =>
      { w with vheaders := (releaseSlot w.vheaders (w.bin (w.vheaders run).bin) run j).1 }.setBin
        (w.vheaders run).bin (releaseSlot w.vheaders (w.bin (w.vheaders run).bin) run j).2 :
      Prog Unit) :=
    fun run j => sameMeta_modify fun _ => rfl
  dsimp only [arenaFree, arenaFreeLarge, arenaFreeSmall, arenaCreateBlockHeader]
  infer_instance

instance : Preserves (SameMeta nvm) (nvmFree ptr l1 l2) := by
  dsimp only [nvmFree]
  infer_instance

end

/-- The meta file after a call. -/
theorem LinkCall.meta_after (k : LinkCall) {w w' : World} {ptr : ℕ} {l1 l2 : Option Link}
    {res : Option ℕ} (hrun : ((k.op ptr l1 l2).prog w).2 = .ok (res, w')) :
    w'.nvm.log = k.logAfter w ptr ∧ w'.nvm.nextChunk = w.nvm.nextChunk ∧
      w'.nvm.version = w.nvm.version := by
  cases k with
  | activate =>
    obtain ⟨_, w₁, hcall, hpure⟩ := bind_result.mp hrun
    cases hpure
    unfold nvmActivate at hcall
    obtain ⟨_, w₂, hlog, hrest⟩ := bind_result.mp hcall
    have hlogged : SameMeta { w.nvm with log := LinkCall.activate.logAfter w ptr } w₂ := by
      cases hlog
      exact ⟨rfl, rfl, rfl⟩
    have hsame := Preserves.out hlogged hrest
    exact ⟨hsame.log, hsame.nextChunk, hsame.version⟩
  | free =>
    obtain ⟨_, w₁, hcall, hpure⟩ := bind_result.mp hrun
    cases hpure
    have hsame := Preserves.out (I := SameMeta w.nvm) ⟨rfl, rfl, rfl⟩ hcall
    exact ⟨hsame.log, hsame.nextChunk, hsame.version⟩

/-! ## Link words -/

section

variable {L : Layout} {s : Sys} {nvmStart : ℕ} {m m' : Mem} {l1 l2 : Option Link} {x : Link}

/-- A word apart from the metadata misses the header of every tile. -/
theorem HeapInv.apart_header (h : HeapInv L s.w s.live) {a p : ℕ} {t : Tile}
    (ha : OffMetadata s.w.nvm a) (hp : L p = some t) : Apart a 8 (4096 * p) 64 := by
  have haligned := h.nvm.aligned
  by_cases hchunk : p % 1024 = 0
  · have hc : 1024 * (p / 1024) = p := by omega
    have hmem : p / 1024 ∈ chunkHeaders s.w.nvm := by
      rw [haligned.chunkHeaders.2, hc, hp]
      rfl
    have hapart := ha.hugeHeader _ hmem
    rwa [show 4194304 * (p / 1024) = 4096 * p by omega] at hapart
  · have harena := haligned.arena_of_page hp hchunk
    refine ha.pageHeader (p / 1024) ((haligned.arenaChunks.2 _).mpr harena) p ?_
    rw [(haligned.pageHeaders harena).2, hp]
    exact ⟨by omega, rfl⟩

theorem linkWords_mem {y : ℕ × ℕ} (hy : y ∈ linkWords nvmStart l1 l2) :
    ∃ x, (x ∈ l1 ∨ x ∈ l2) ∧ y = x.word nvmStart := by
  cases l1 with
  | none => exact absurd hy List.not_mem_nil
  | some x1 =>
    cases l2 with
    | none => exact ⟨x1, Or.inl rfl, List.mem_singleton.mp hy⟩
    | some x2 =>
      rcases List.mem_cons.mp hy with hy | hy
      · exact ⟨x1, Or.inl rfl, hy⟩
      · exact ⟨x2, Or.inr rfl, List.mem_singleton.mp hy⟩

theorem HeapInv.linksApart_of_args (h : HeapInv L s.w s.live) (hargs : LinkArgs s.w.nvm l1 l2) :
    LinksApart L s.w.nvmStart l1 l2 := by
  have hheap : ∀ x : Link, OffMetadata s.w.nvm x.ptr → x.InHeap := by
    intro x hx
    have hin := hx.inNvm
    have hle := Nat.mul_le_mul_left chunkSize h.nvm.le
    have hspace : chunkSize * maxNvmChunks = 107374182400 := by decide
    -- offset 0 is in the header page of the first chunk
    have harena := h.nvm.base 0 (by decide)
    have hapart := hx.headerPage 0 ((h.nvm.aligned.arenaChunks.2 0).mpr harena)
    simp only [Apart] at hapart
    exact ⟨by omega, by omega⟩
  refine ⟨fun x hx => hheap x (hargs.first x hx), fun x hx => hheap x (hargs.second x hx),
    fun {p t} hp y hy => ?_⟩
  obtain ⟨x, hx | hx, rfl⟩ := linkWords_mem hy
  · exact h.apart_header (hargs.first x hx) hp
  · exact h.apart_header (hargs.second x hx) hp

theorem Link.holds_store : x.Holds nvmStart (store m x.ptr 8 (absToRelWithNull nvmStart x.target)) := by
  unfold Link.Holds
  rw [load_store_same]
  exact Nat.mod_eq_of_lt absToRelWithNull_lt

theorem Link.Holds.congr (h : x.Holds nvmStart m) (heq : EqOn m m' x.ptr 8) : x.Holds nvmStart m' :=
  (load_congr heq).trans h

/-- With a first link both words are stored. -/
theorem holds_storeWords {x1 : Link} (hdistinct : ∀ y ∈ l2, Apart x1.ptr 8 y.ptr 8)
    (hx : x ∈ some x1 ∨ x ∈ l2) :
    x.Holds nvmStart (Memory.storeWords m (linkWords nvmStart (some x1) l2)) := by
  cases l2 with
  | none =>
    obtain rfl : x1 = x := by simpa using hx
    exact Link.holds_store
  | some x2 =>
    rcases hx with hx | hx
    · obtain rfl : x1 = x := by simpa using hx
      have hapart := hdistinct x2 rfl
      exact Link.holds_store.congr ((store_eqOff _ _ _ _).eqOn hapart)
    · obtain rfl : x2 = x := by simpa using hx
      exact Link.holds_store

end

/-- The activity of the regions that a call is made on. -/
def LinkCall.active : LinkCall → Bool
  | .activate => false
  | .free => true

/-- The call returns, and what it did to NVM outside the header of its object and the log is to store the
words of `linkWords`. -/
theorem LinkCall.stores (k : LinkCall) {P : Process} {s : Sys} {ptr : ℕ} {l1 l2 : Option Link}
    (hs : Reachable P s) (hout : Outstanding s.live ptr k.active) (hargs : LinkArgs s.w.nvm l1 l2) :
    ∃ w', ((k.op ptr l1 l2).prog s.w).2 = .ok (none, w') ∧
      EqOff (Memory.storeWords s.w.nvm.mem (linkWords s.w.nvmStart l1 l2)) w'.nvm.mem
        (ptr / blockSize * blockSize) 64 ∧
      ∀ x, x ∈ l1 ∨ x ∈ l2 → Apart x.ptr 8 (ptr / blockSize * blockSize) 64 := by
  obtain ⟨L, hproc, -⟩ := sysInv_of_reachable hs
  have hapart := hproc.toHeapInv.linksApart_of_args hargs
  obtain ⟨r, hr, rfl, hactive⟩ := hout
  obtain ⟨p, t, w', hp, hcall⟩ : ∃ p t w', L p = some t ∧ Completes k s r.ptr l1 l2 p w' := by
    cases k with
    | activate => exact activate_completes hproc hr hactive hapart
    | free => exact free_completes hproc hr hactive hapart
  refine ⟨w', hcall.emits.1, ?_, fun x hx => ?_⟩
  · rw [hcall.page]
    exact hcall.emits.2.eqOff
  · rw [hcall.page]
    rcases hx with hx | hx
    · exact hproc.toHeapInv.apart_header (hargs.first x hx) hp
    · exact hproc.toHeapInv.apart_header (hargs.second x hx) hp

/-- **Link semantics.** An activation of a reserved region and a free of an active one return with the
links stored and nothing else changed exactly when there is no second link without a first one, or its
word held the target before. -/
theorem link_semantics_iff {P : Process} {s : Sys} {k : LinkCall} {ptr : ℕ} {l1 l2 : Option Link}
    (hs : Reachable P s) (hout : Outstanding s.live ptr k.active) (hargs : LinkArgs s.w.nvm l1 l2) :
    (∃ w', ((k.op ptr l1 l2).prog s.w).2 = .ok (none, w') ∧ LinkEffect k s.w ptr l1 l2 w'.nvm) ↔
      l1.isSome ∨ ∀ x ∈ l2, x.Holds s.w.nvmStart s.w.nvm.mem := by
  obtain ⟨w', hret, hoff, hapart⟩ := k.stores hs hout hargs
  obtain ⟨hlog, hnext, hversion⟩ := k.meta_after hret
  -- the words are seen as they were stored
  have hseen : ∀ x, x ∈ l1 ∨ x ∈ l2 → EqOn (Memory.storeWords s.w.nvm.mem
      (linkWords s.w.nvmStart l1 l2)) w'.nvm.mem x.ptr 8 := fun x hx => hoff.eqOn (hapart x hx)
  have hothers : ∀ y, (∀ x, x ∈ l1 ∨ x ∈ l2 → y < x.ptr ∨ x.ptr + 8 ≤ y) →
      y < ptr / blockSize * blockSize ∨ ptr / blockSize * blockSize + headerSize ≤ y →
      w'.nvm.mem y = s.w.nvm.mem y := by
    intro y hwords hheader
    rw [hoff y hheader]
    have houtside : Outside (linkWords s.w.nvmStart l1 l2) y 1 := by
      intro z hz
      obtain ⟨x, hx, rfl⟩ := linkWords_mem hz
      exact (hwords x hx).symm
    exact houtside.eqOn _ y le_rfl (Nat.lt_succ_self y)
  constructor
  · rintro ⟨w'', hret'', heffect⟩
    obtain rfl : w' = w'' := by
      rw [hret] at hret''
      exact (Prod.mk.inj (Except.ok.inj hret'')).2
    cases l1 with
    | some x1 => exact Or.inl rfl
    | none =>
      refine Or.inr fun x hx => ?_
      exact (heffect.written x (Or.inr hx)).congr (hseen x (Or.inr hx)).symm
  · intro hcond
    refine ⟨w', hret, ⟨fun x hx => ?_, hothers, hlog, hnext, hversion⟩⟩
    cases l1 with
    | some x1 => exact (holds_storeWords (hargs.distinct x1 rfl) hx).congr (hseen x hx)
    | none =>
      have hx2 : x ∈ l2 := hx.resolve_left (by simp)
      exact (hcond.resolve_left (by simp) x hx2).congr (hseen x hx)

/-- An object is activated with two links in its own memory, one of them to itself. -/
theorem link_semantics_both : ∃ s w', Reachable sampleProcess s ∧
    ((LinkCall.activate.op 4190272 (some ⟨4190272, 4100190272⟩) (some ⟨4190280, 0⟩)).prog s.w).2 =
      .ok (none, w') ∧
    LinkEffect .activate s.w 4190272 (some ⟨4190272, 4100190272⟩) (some ⟨4190280, 0⟩) w'.nvm := by
  have hany : ((sampleHistory [.reserve 0 100]).any fun s =>
      decide (Outstanding s.live 4190272 false ∧
        LinkArgs s.w.nvm (some ⟨4190272, 4100190272⟩) (some ⟨4190280, 0⟩))) = true := by decide +kernel
  obtain ⟨s, hs, htest⟩ := Process.exists_reachable hany
  obtain ⟨hout, hargs⟩ := of_decide_eq_true htest
  obtain ⟨w', hret, heffect⟩ := (link_semantics_iff (k := .activate) hs hout hargs).mpr (Or.inl rfl)
  exact ⟨s, w', hs, hret, heffect⟩

/-- A second link without a first one is not written. -/
theorem second_link_ignored : ∃ s, Reachable sampleProcess s ∧ Outstanding s.live 4190272 false ∧
    LinkArgs s.w.nvm none (some ⟨4190272, 4100190272⟩) ∧
    ¬ ∃ w', ((LinkCall.activate.op 4190272 none (some ⟨4190272, 4100190272⟩)).prog s.w).2 =
        .ok (none, w') ∧
      LinkEffect .activate s.w 4190272 none (some ⟨4190272, 4100190272⟩) w'.nvm := by
  have hany : ((sampleHistory [.reserve 0 100]).any fun s =>
      decide (Outstanding s.live 4190272 false ∧
        LinkArgs s.w.nvm none (some ⟨4190272, 4100190272⟩)) &&
      !returnsWith (fun _ w' => decide ((⟨4190272, 4100190272⟩ : Link).Holds s.w.nvmStart w'.nvm.mem))
        ((LinkCall.activate.op 4190272 none (some ⟨4190272, 4100190272⟩)).prog s.w).2) = true := by
    decide +kernel
  obtain ⟨s, hs, htest⟩ := Process.exists_reachable hany
  rw [Bool.and_eq_true, decide_eq_true_eq] at htest
  obtain ⟨⟨hout, hargs⟩, htest⟩ := htest
  refine ⟨s, hs, hout, hargs, ?_⟩
  rintro ⟨w', hret, heffect⟩
  rw [hret] at htest
  have hword := heffect.written ⟨4190272, 4100190272⟩ (Or.inr rfl)
  simp [returnsWith, hword] at htest

end NvmMalloc
