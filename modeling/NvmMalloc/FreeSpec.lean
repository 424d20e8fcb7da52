import NvmMalloc.ActivateSpec

/-!
# Deallocation

Reference: `src/nvm_malloc.c` (`nvm_free`), `src/arena.c` (`arena_free`).

`nvm_free` runs the same header protocols as `nvm_activate`, in the other direction and without naming
its pointer in the log, and then returns the region to its pool or its bin.
-/

namespace NvmMalloc

open Memory CrashM

variable {L : Layout} {w : World} {live : List Region} {B : Blame} {p : ℕ} {t : Tile} {r : Region}

/-! ## The ledger after a free -/

theorem mem_dropRegion {ptr : ℕ} {r : Region} :
    r ∈ dropRegion ptr live ↔ r ∈ live ∧ r.ptr ≠ ptr := by
  unfold dropRegion
  rw [List.mem_filter, decide_eq_true_iff]

/-- Dropping a region from the ledger. -/
theorem LiveInv.drop {L' : Layout} {m m' : Mem} {H H' : ℕ → ArenaRun} (h : LiveInv L m H live)
    (hplaced : ∀ r' ∈ live, r'.ptr ≠ r.ptr → Placed L' m' H' r')
    (hblock : ∀ q n b, L' q = some (.block n (.user b)) →
      (∃ b', L q = some (.block n (.user b'))) ∧ 4096 * q + 64 ≠ r.ptr)
    (hhuge : ∀ q n b, L' q = some (.huge n (.user b)) →
      (∃ b', L q = some (.huge n (.user b'))) ∧ 4096 * q + 64 ≠ r.ptr)
    (hslot : ∀ q k i, L' q = some (.run k) → i < slotsPerRun (H' k).elemSize →
      (H' k).bitmap i = true → (∃ r' ∈ live, r'.ptr = 4096 * q + 64 + (H' k).elemSize * i) ∧
        4096 * q + 64 + (H' k).elemSize * i ≠ r.ptr)
    (hbit : ∀ q k i, L' q = some (.run k) → i < 64 → bitmapBit m' (4096 * q) i = true →
      i < slotsPerRun (H' k).elemSize ∧ (H' k).bitmap i = true) :
    LiveInv L' m' H' (dropRegion r.ptr live) where
  nodup := h.nodup.sublist ((List.filter_sublist ..).map _)
  size r' hr' := h.size r' (mem_dropRegion.mp hr').1
  placed r' hr' := hplaced r' (mem_dropRegion.mp hr').1 (mem_dropRegion.mp hr').2
  block hq := by
    obtain ⟨⟨b', hq'⟩, hne⟩ := hblock _ _ _ hq
    obtain ⟨r', hr', hptr⟩ := h.block hq'
    exact ⟨r', mem_dropRegion.mpr ⟨hr', hptr ▸ hne⟩, hptr⟩
  huge hq := by
    obtain ⟨⟨b', hq'⟩, hne⟩ := hhuge _ _ _ hq
    obtain ⟨r', hr', hptr⟩ := h.huge hq'
    exact ⟨r', mem_dropRegion.mpr ⟨hr', hptr ▸ hne⟩, hptr⟩
  slot hq hi hb := by
    obtain ⟨⟨r', hr', hptr⟩, hne⟩ := hslot _ _ _ hq hi hb
    exact ⟨r', mem_dropRegion.mpr ⟨hr', hptr ▸ hne⟩, hptr⟩
  nvmBit hq hi hb := hbit _ _ _ hq hi hb

/-- A slot of another page, or another tile, is not the freed region. -/
theorem HeapInv.slot_ne (h : HeapInv L w live) {q k i : ℕ} (hq : L q = some (.run k))
    (hi : i < slotsPerRun (w.vheaders k).elemSize) (hne : q ≠ r.ptr / 4096) :
    4096 * q + 64 + (w.vheaders k).elemSize * i ≠ r.ptr := by
  obtain ⟨c, -, helem⟩ := h.elemSize_runSize hq
  intro heq
  have hpage := slot_page (p := q) (e := (w.vheaders k).elemSize) (by omega) hi
  rw [heq] at hpage
  exact hne hpage.symm

/-- A large or huge region goes back to the call in progress. -/
theorem HeapInv.releaseTile (h : HeapInv L w live) {m : Mem} {u : Tile}
    (hptr : r.ptr = 4096 * p + 64) (hp : L p = some t) (heq : EqOff w.nvm.mem m (4096 * p) 64)
    (hquiet : Quiet m p u)
    (hstate : field m (4096 * p) stateF = usageFree + stateInitialized)
    (hkind : (∃ n b, t = .block n (.user b) ∧ u = .block n .held) ∨
      ∃ n b, t = .huge n (.user b) ∧ u = .huge n .held) :
    HeapInv (L.set p u) (w.setMem m) (dropRegion r.ptr live) := by
  have hlen : u.len = t.len := by rcases hkind with ⟨n, b, rfl, rfl⟩ | ⟨n, b, rfl, rfl⟩ <;> rfl
  have hfits : u.Fits p := by
    have := h.nvm.ok.fits hp
    rcases hkind with ⟨n, b, rfl, rfl⟩ | ⟨n, b, rfl, rfl⟩ <;> exact this
  have hne : ∀ k, t ≠ .run k := by rcases hkind with ⟨n, b, rfl, rfl⟩ | ⟨n, b, rfl, rfl⟩ <;> simp
  have hiff : ∀ {v : Tile}, (∀ n b, v ≠ .block n (.user b)) → (∀ n b, v ≠ .huge n (.user b)) →
      ¬ v.Held → ∀ q, L.set p u q = some v ↔ L q = some v := by
    intro v hb hh hheld q
    refine Layout.set_eq_some_iff ?_ ?_
    · rw [hp]
      rcases hkind with ⟨n, b, rfl, rfl⟩ | ⟨n, b, rfl, rfl⟩
      · exact fun heq => hb n b (Option.some.inj heq).symm
      · exact fun heq => hh n b (Option.some.inj heq).symm
    · rintro rfl
      rcases hkind with ⟨n, b, rfl, rfl⟩ | ⟨n, b, rfl, rfl⟩ <;> exact hheld trivial
  have huser : ∀ {q v}, L.set p u q = some v → ¬ v.Held → q ≠ p ∧ L q = some v := by
    intro q v hq hv
    rcases Layout.set_eq_some hq with ⟨-, rfl⟩ | hq
    · rcases hkind with ⟨n, b, rfl, rfl⟩ | ⟨n, b, rfl, rfl⟩ <;> exact absurd trivial hv
    · exact hq
  have hline : ∀ q k, L q = some (.run k) → q ≠ p ∧ EqOn w.nvm.mem m (4096 * q) 64 := by
    intro q k hq
    have hqp : q ≠ p := fun hqp => hne k (by rw [hqp, hp, Option.some.injEq] at hq; exact hq)
    exact ⟨hqp, h.nvm.ok.eqOn_header heq hp hq hqp⟩
  refine ⟨?_, ?_, ?_, ?_⟩
  · refine h.nvm.setHeader hp heq hlen hfits hquiet ?_ ?_ (fun _ _ _ _ _ _ => ?_) fun x hx => ?_
    · rcases hkind with ⟨n, b, rfl, rfl⟩ | ⟨n, b, rfl, rfl⟩ <;> simp
    · rcases hkind with ⟨n, b, rfl, rfl⟩ | ⟨n, b, rfl, rfl⟩ <;> simp
    · rw [hstate]
      decide
    · rcases hkind with ⟨n, b, rfl, rfl⟩ | ⟨n, b, rfl, rfl⟩ <;> exact hx
  · exact h.pool.congr (fun q n a => hiff (by simp) (by simp) id q)
      (fun q n a => hiff (by simp) (by simp) id q) (fun _ => rfl) rfl
  · exact h.runs.congr (fun q k => hiff (by simp) (by simp) id q) (fun q k hq => (hline q k hq).2)
      rfl rfl
  · refine h.live.drop (fun r' hr' hne' => ?_) (fun q n b hq => ?_) (fun q n b hq => ?_)
      (fun q k i hq hi hb => ?_) fun q k i hq hi hb => ?_
    · have hkeep : ∀ {q v}, L q = some v → q ≠ p → L.set p u q = some v :=
        fun hq hqp => by rwa [Layout.set_of_ne hqp]
      cases h.live.placed r' hr' with
      | @small hs q k i htile he hi hptr' hbit hnvm =>
        refine .small hs (hkeep htile (hline q k htile).1) he hi hptr' hbit ?_
        have := h.slots_le htile
        rw [setMem_nvm, bitmapBit_eqOn (hline q k htile).2 (by omega)]
        exact hnvm
      | @large hlo hhi q htile hptr' =>
        exact .large hlo hhi (hkeep htile (by rintro rfl; exact hne' (hptr'.trans hptr.symm))) hptr'
      | @huge hlo q htile hptr' =>
        exact .huge hlo (hkeep htile (by rintro rfl; exact hne' (hptr'.trans hptr.symm))) hptr'
    · obtain ⟨hqp, hq⟩ := huser hq id
      exact ⟨⟨b, hq⟩, by omega⟩
    · obtain ⟨hqp, hq⟩ := huser hq id
      exact ⟨⟨b, hq⟩, by omega⟩
    · obtain ⟨hqp, hq⟩ := huser hq id
      exact ⟨h.live.slot hq hi hb, h.slot_ne hq hi (by omega)⟩
    · obtain ⟨hqp, hq⟩ := huser hq id
      rw [setMem_nvm, bitmapBit_eqOn (hline q k hq).2 hi] at hb
      exact h.live.nvmBit hq hi hb

/-- A small region goes back to its run. -/
theorem HeapInv.releaseSlot (h : HeapInv L w live) {m : Mem} {k i : ℕ} {x : ArenaRun}
    (hp : L p = some (.run k)) (hi : i < slotsPerRun (w.vheaders k).elemSize)
    (hptr : r.ptr = 4096 * p + 64 + (w.vheaders k).elemSize * i)
    (hedit : RunEdit w.nvm.mem m p i false)
    (hrun : x.nvmRun = (w.vheaders k).nvmRun) (helem : x.elemSize = (w.vheaders k).elemSize)
    (hbin : x.bin = (w.vheaders k).bin) (hmax : x.nMax = (w.vheaders k).nMax)
    (hbitmap : x.bitmap = Function.update (w.vheaders k).bitmap i false) :
    HeapInv L { w.setMem m with vheaders := Function.update w.vheaders k x }
      (dropRegion r.ptr live) := by
  obtain ⟨hnvm, hpool, hruns⟩ := h.setRunHeader hp hedit
  have hbits := hedit.bits
  have hpage := h.page_of_slot hp hi hptr
  have helems : ∀ j, (Function.update w.vheaders k x j).elemSize = (w.vheaders j).elemSize := by
    intro j
    by_cases hjk : j = k
    · rw [hjk, Function.update_self, helem]
    · rw [Function.update_of_ne hjk]
  -- the VHeaders lose the bit of the freed slot only
  have hother : ∀ q j i', L q = some (.run j) → ¬ (q = p ∧ i' = i) →
      (Function.update w.vheaders k x j).bitmap i' = (w.vheaders j).bitmap i' := by
    intro q j i' hq hne
    by_cases hjk : j = k
    · subst hjk
      have hqp : q = p := by
        have hq' := (h.runs.run hq).2.nvmRun
        rw [(h.runs.run hp).2.nvmRun] at hq'
        omega
      rw [Function.update_self, hbitmap, Function.update_of_ne fun hii => hne ⟨hqp, hii⟩]
    · rw [Function.update_of_ne hjk]
  have hcleared : (Function.update w.vheaders k x k).bitmap i = false := by
    rw [Function.update_self, hbitmap, Function.update_self]
  have hnvmBits : ∀ q j i', L q = some (.run j) → i' < 64 → ¬ (q = p ∧ i' = i) →
      bitmapBit m (4096 * q) i' = bitmapBit w.nvm.mem (4096 * q) i' := by
    intro q j i' hq hi' hne
    by_cases hqp : q = p
    · subst hqp
      rw [hbits i' hi', Function.update_of_ne fun hii => hne ⟨rfl, hii⟩]
    · exact bitmapBit_eqOn (h.nvm.ok.eqOn_header hedit.off hp hq hqp) hi'
  refine ⟨hnvm, hpool.congr (fun _ _ _ => Iff.rfl) (fun _ _ _ => Iff.rfl) (fun _ => rfl) rfl,
    hruns.updateRun rfl rfl rfl hrun helem hbin hmax, ?_⟩
  refine h.live.drop (fun r' hr' hne => ?_) (fun q n b hq => ⟨⟨b, hq⟩, ?_⟩)
    (fun q n b hq => ⟨⟨b, hq⟩, ?_⟩) (fun q j i' hq hi' hb => ?_) fun q j i' hq hi' hb => ?_
  · cases h.live.placed r' hr' with
    | @small hs q j i' htile he hi' hptr' hbit hnvm' =>
      have hslot : ¬ (q = p ∧ i' = i) := by
        rintro ⟨rfl, rfl⟩
        rw [hp, Option.some.injEq, Tile.run.injEq] at htile
        subst htile
        exact hne (hptr'.trans hptr.symm)
      have hslots := h.slots_le htile
      refine .small hs htile ((helems j).trans he) (by rw [helems]; exact hi')
        (by rw [helems]; exact hptr')
        ?_ ?_
      · rw [hother q j i' htile hslot]
        exact hbit
      · show bitmapBit m (4096 * q) i' = r'.active
        rw [hnvmBits q j i' htile (by omega) hslot]
        exact hnvm'
    | large hlo hhi htile hptr' => exact .large hlo hhi htile hptr'
    | huge hlo htile hptr' => exact .huge hlo htile hptr'
  · intro heq'
    have hqp : q = p := by omega
    rw [hqp, hp] at hq
    exact absurd hq (by simp)
  · intro heq'
    have hqp : q = p := by omega
    rw [hqp, hp] at hq
    exact absurd hq (by simp)
  · rw [helems] at hi' ⊢
    have hslot : ¬ (q = p ∧ i' = i) := by
      rintro ⟨rfl, rfl⟩
      rw [hp, Option.some.injEq, Tile.run.injEq] at hq
      subst hq
      exact absurd (hcleared.symm.trans hb) (by simp)
    have hb' := (hother q j i' hq hslot).symm.trans hb
    refine ⟨h.live.slot hq hi' hb', fun heq' => ?_⟩
    by_cases hqp : q = p
    · subst hqp
      rw [hp, Option.some.injEq, Tile.run.injEq] at hq
      subst hq
      obtain ⟨c, -, he⟩ := h.elemSize_runSize hp
      have hmul : (w.vheaders k).elemSize * i' = (w.vheaders k).elemSize * i := by omega
      exact hslot ⟨rfl, Nat.eq_of_mul_eq_mul_left (by omega) hmul⟩
    · exact h.slot_ne hq hi' (hpage ▸ hqp) heq'
  · have hslot : ¬ (q = p ∧ i' = i) := by
      rintro ⟨rfl, rfl⟩
      have hclear := hbits i' hi'
      rw [Function.update_self] at hclear
      exact absurd (hclear.symm.trans hb) (by simp)
    have hb' := (hnvmBits q j i' hq hi' hslot).symm.trans hb
    obtain ⟨hlt, hset⟩ := h.live.nvmBit hq hi' hb'
    exact ⟨by rw [helems]; exact hlt, (hother q j i' hq hslot).trans hset⟩

/-! ## `nvm_free` -/

/-- What a crash inside `nvm_free` can leave. -/
inductive FreeImage (L : Layout) (w : World) (r : Region) (l1 l2 : Option Link) : Nvm → Prop where
  | start : FreeImage L w r l1 l2 w.nvm
  | huge {p n : ℕ} {m : Mem} (htile : L p = some (.huge n (.user true)))
      (hptr : r.ptr = 4096 * p + 64)
      (hprog : HdrProgress w.nvmStart w.nvm.mem (4096 * p) (usageHuge + stateFreeing)
        (usageFree + stateInitialized) l1 l2 m) :
      FreeImage L w r l1 l2 { w.nvm with mem := m }
  | large {p n : ℕ} {m : Mem} (htile : L p = some (.block n (.user true)))
      (hptr : r.ptr = 4096 * p + 64)
      (hprog : HdrProgress w.nvmStart w.nvm.mem (4096 * p) (usageBlock + stateFreeing)
        (usageFree + stateInitialized) l1 l2 m) :
      FreeImage L w r l1 l2 { w.nvm with mem := m }
  | small {p k i : ℕ} {m₀ m : Mem} (htile : L p = some (.run k))
      (hi : i < slotsPerRun (w.vheaders k).elemSize)
      (hptr : r.ptr = 4096 * p + 64 + (w.vheaders k).elemSize * i)
      (hm₀ : m₀ = store w.nvm.mem (4096 * p + stateF.off) stateF.width (usageRun + statePrefree))
      (hprog : RunProgress w.nvmStart m₀ (4096 * p) (usageRun + stateFreeing) i false l1 l2 m) :
      FreeImage L w r l1 l2 { w.nvm with mem := m }

section

variable {l1 l2 : Option Link} {C : Nvm → Prop}

/-- The header protocol of a large or huge region that is freed. -/
theorem freeHeader_spec (h : HeapInv L w live) {u : Tile} {n committed : ℕ} {b : Bool}
    (hptr : r.ptr = 4096 * p + 64) (hp : L p = some t) (h1 : LinkOk live l1) (h2 : LinkOk live l2)
    (hkind : (t = .block n (.user b) ∧ u = .block n .held) ∨
      (t = .huge n (.user b) ∧ u = .huge n .held)) (hcommitted : committed < 256)
    (hC : ∀ m, HdrProgress w.nvmStart w.nvm.mem (4096 * p) committed (usageFree + stateInitialized)
      l1 l2 m → C { w.nvm with mem := m }) :
    Spec (commitHeader (4096 * p) committed (usageFree + stateInitialized) l1 l2) C
      (fun _ w' => HeapInv (L.set p u) w' (dropRegion r.ptr live) ∧ PoolOnly w w' ∧
        field w'.nvm.mem (4096 * p) stateF = usageFree + stateInitialized ∧
        Evolves True L w.nvm.mem (L.set p u) w'.nvm.mem ∧
        field w'.nvm.mem (4096 * p) blockArenaIdF = field w.nvm.mem (4096 * p) blockArenaIdF)
      (fun _ => False) w := by
  have hbodies := h.live.linkWords w.nvmStart h1 h2
  change Spec _ _ _ _ (w.setMem w.nvm.mem)
  refine (commitHeader_spec (h.link_inHeap h1) (h.link_inHeap h2) (hbodies.outside h.nvm.ok hp)
    hcommitted (by decide) hC).imp ?_
  rintro _ _ ⟨m, rfl, hstage, hon⟩
  have hquiet : Quiet m p u := by
    have hq := h.nvm.quiet hp
    rcases hkind with ⟨rfl, rfl⟩ | ⟨rfl, rfl⟩
    · obtain ⟨hpages, harena, -, -⟩ := hq
      refine ⟨?_, ?_, hstage.state, by simp⟩
      · rw [hstage.field_eq (by decide), hpages]
      · rw [hstage.field_eq (by decide)]
        exact harena
    · obtain ⟨hchunks, -, -⟩ := hq
      refine ⟨?_, Or.inl hstage.state, by simp⟩
      rw [hstage.field_eq (by decide), hchunks]
  have hkind' : (∃ n b, t = .block n (.user b) ∧ u = .block n .held) ∨
      ∃ n b, t = .huge n (.user b) ∧ u = .huge n .held := by
    rcases hkind with ⟨ht, hu⟩ | ⟨ht, hu⟩
    · exact Or.inl ⟨n, b, ht, hu⟩
    · exact Or.inr ⟨n, b, ht, hu⟩
  have hne : t ≠ .arena := by rcases hkind with ⟨rfl, -⟩ | ⟨rfl, -⟩ <;> simp
  have hbecomes : t.Becomes u := by
    rcases hkind with ⟨rfl, rfl⟩ | ⟨rfl, rfl⟩
    · exact .block
    · exact .huge
  refine ⟨(h.storeWords hbodies).releaseTile hptr hp hstage.off hquiet hstage.state hkind',
    ⟨⟨rfl, rfl, rfl, h.table_of_protocol hp hne hbodies hstage.off⟩, rfl, rfl, rfl⟩, hstage.state,
    h.evolves_of_protocol hp hbecomes hbodies hstage.off fun ht => ?_, hstage.field_eq (by decide)⟩
  rcases hkind with ⟨rfl, rfl⟩ | ⟨rfl, rfl⟩
  · exact ht.block (hstage.field_eq (by decide)) (by simp)
  · trivial

/-- Freeing a large region. -/
theorem arenaFreeLarge_spec (h : ProcInv L w live) {n : ℕ} (hptr : r.ptr = 4096 * p + 64)
    (hp : L p = some (.block n (.user true))) (h1 : LinkOk live l1) (h2 : LinkOk live l2) :
    Spec (arenaFreeLarge (4096 * p) l1 l2) (FreeImage L w r l1 l2)
      (fun _ w' => ∃ L', ProcInv L' w' (dropRegion r.ptr live) ∧ Untouched w w' ∧
        Evolves True L w.nvm.mem L' w'.nvm.mem ∧
        L' p = some (.block n (.pool (field w.nvm.mem (4096 * p) blockArenaIdF))) ∧
        field w'.nvm.mem (4096 * p) blockArenaIdF = field w.nvm.mem (4096 * p) blockArenaIdF)
      (fun _ => False) w := by
  obtain ⟨hpages, harena, -, -⟩ := h.nvm.quiet hp
  have hfits : (Tile.block n (.user true)).Fits p := h.nvm.ok.fits hp
  have hn : n % 2 ^ 16 = n := by
    have := hfits.2
    omega
  unfold arenaFreeLarge arenaCreateBlockHeader
  rw [spec_bind]
  refine spec_loadField_then (spec_loadField_then ?_)
  rw [if_pos harena, spec_pure, hpages, hn]
  refine (freeHeader_spec h.toHeapInv hptr hp h1 h2 (Or.inl ⟨rfl, rfl⟩) (by decide)
    fun m hm => .large hp hptr hm).bind ?_
  rintro _ w' ⟨hinv, hsame, -, hevolves, hid⟩
  unfold addFreePagerun
  rw [spec_modify]
  have hput := hinv.putPages (field w.nvm.mem (4096 * p) blockArenaIdF) Layout.set_self
  have hsame' : PoolOnly w (w'.setTree (field w.nvm.mem (4096 * p) blockArenaIdF)
      ((w'.arenas (field w.nvm.mem (4096 * p) blockArenaIdF)).freePageruns.treeAdd ArenaBlock.nPages
        ⟨4096 * p, n, field w.nvm.mem (4096 * p) blockArenaIdF⟩)) :=
    hsame.trans ⟨⟨rfl, rfl, rfl, fun _ _ => EqOn.refl _ _ _⟩, rfl, rfl, setTree_bin _ _ _⟩
  refine ⟨_, h.of_poolOnly hput (h.owned.hold.set harena) hsame', hsame'.toUntouched,
    hevolves.trans (fun _ ha => ha p _ hp)
      (.set hinv.nvm.ok Layout.set_self .block (EqOff.refl _ _ _) fun hold ht => ht.block rfl ?_),
    Layout.set_self, hid⟩
  -- the page run returns to the arena that its header names
  rintro a ha
  rw [← Owner.pool.inj ha]
  exact hold.1

/-- The VHeader of a run of this process. -/
theorem ensureVheader_spec (h : ProcInv L w live) {m : Mem} {k : ℕ} {Q : ℕ → World → Prop}
    {E : Stop → Prop} (hp : L p = some (.run k))
    (hkeep : ∀ x, 4096 * p + 1 ≤ x → x < 4096 * p + 16 ∨ 4096 * p + 58 ≤ x → x < 4096 * p + 64 →
      m x = w.nvm.mem x) (hQ : Q k (w.setMem m)) :
    Spec (ensureVheader (4096 * p)) C Q E (w.setMem m) := by
  unfold ensureVheader
  refine spec_loadField_then (spec_loadField_then ?_)
  rw [spec_bind, spec_get, if_neg]
  · have hvdata : field m (4096 * p) vdataF = k := by
      rw [field_keep hkeep (by decide)]
      exact (h.runs.run hp).2.vdata
    rw [spec_pure, setMem_nvm, hvdata]
    exact hQ
  · show ¬ field m (4096 * p) versionF < w.currentVersion
    rw [h.version]
    omega

/-- The section of `arena_free` that returns a slot to its bin. -/
theorem ProcInv.releaseSlot (h : ProcInv L w live) {m : Mem} {k i : ℕ} (hr : r ∈ live)
    (hp : L p = some (.run k)) (hi : i < slotsPerRun (w.vheaders k).elemSize)
    (hptr : r.ptr = 4096 * p + 64 + (w.vheaders k).elemSize * i)
    (hedit : RunEdit w.nvm.mem m p i false) :
    ProcInv L
      ({ w.setMem m with
        vheaders := (NvmMalloc.releaseSlot w.vheaders (w.bin (w.vheaders k).bin) k i).1 }.setBin
        (w.vheaders k).bin (NvmMalloc.releaseSlot w.vheaders (w.bin (w.vheaders k).bin) k i).2)
      (dropRegion r.ptr live) := by
  obtain ⟨R, hR, hmem⟩ := h.bins (w.vheaders k).bin
  have hk : k ∈ R := (hmem k).mpr ⟨(h.runs.run hp).1, rfl⟩
  have helem := h.elemSize_of_bin hp (Prod.eta (w.vheaders k).bin).symm
  obtain ⟨-, -, hbit, -⟩ := h.region_of_slot hr hp hi hptr
  have hinv := hR.releaseSlot_spec (by omega) hk (helem ▸ hi) hbit
  -- whichever branch is taken, one VHeader changes and keeps its identity
  obtain ⟨x, hx, hrun, hxelem, hxbin, hmax, hbitmap⟩ : ∃ x : ArenaRun,
      (NvmMalloc.releaseSlot w.vheaders (w.bin (w.vheaders k).bin) k i).1 =
        Function.update w.vheaders k x ∧ x.nvmRun = (w.vheaders k).nvmRun ∧
      x.elemSize = (w.vheaders k).elemSize ∧ x.bin = (w.vheaders k).bin ∧
      x.nMax = (w.vheaders k).nMax ∧
      x.bitmap = Function.update (w.vheaders k).bitmap i false := by
    rw [hR.releaseSlot_eq (by omega) hk]
    split
    · exact ⟨_, rfl, rfl, rfl, rfl, rfl, rfl⟩
    · exact ⟨_, rfl, rfl, rfl, rfl, rfl, rfl⟩
  rw [hx] at hinv ⊢
  have hheap := h.toHeapInv.releaseSlot hp hi hptr hedit hrun hxelem hxbin hmax hbitmap
  refine ⟨hheap.setBin _ _, h.owned, ?_, h.version⟩
  rw [setBin_bin, setBin_vheaders, setBin_nVheaders]
  have hbins : ∀ j, (Function.update w.vheaders k x j).bin = (w.vheaders j).bin := by
    intro j
    by_cases hjk : j = k
    · rw [hjk, Function.update_self, hxbin]
    · rw [Function.update_of_ne hjk]
  refine h.bins.set (fun j => by simp only [hbins]; rfl) (fun j _ hj => ?_) ⟨R, hinv, fun j => ?_⟩
  · exact Function.update_of_ne (fun hjk => hj (by rw [hjk])) ..
  · simp only [hbins, hmem]
    rfl

theorem releaseSlot_elemSize (H : ℕ → ArenaRun) (b : ArenaBin) (k i : ℕ) :
    ((NvmMalloc.releaseSlot H b k i).1 k).elemSize = (H k).elemSize := by
  unfold NvmMalloc.releaseSlot
  dsimp only
  split <;> (dsimp only; rw [Function.update_self])

/-- Freeing a small region, active or not. -/
theorem arenaFreeSmall_spec (h : ProcInv L w live) {k i : ℕ} (hr : r ∈ live)
    (hp : L p = some (.run k)) (hi : i < slotsPerRun (w.vheaders k).elemSize)
    (hptr : r.ptr = 4096 * p + 64 + (w.vheaders k).elemSize * i) (h1 : LinkOk live l1)
    (h2 : LinkOk live l2) :
    Spec (arenaFreeSmall r.ptr (4096 * p) l1 l2) (FreeImage L w r l1 l2)
      (fun _ w' => ProcInv L w' (dropRegion r.ptr live) ∧ Untouched w w' ∧
        Evolves True L w.nvm.mem L w'.nvm.mem ∧
        (w'.vheaders k).elemSize = (w.vheaders k).elemSize) (fun _ => False) w := by
  have hbodies := h.live.linkWords w.nvmStart h1 h2
  have hout := hbodies.outside h.nvm.ok hp
  have hslots := h.slots_le hp
  obtain ⟨c, -, helem⟩ := h.elemSize_runSize hp
  obtain ⟨-, hst, -⟩ : Quiet w.nvm.mem p (.run k) := h.nvm.quiet hp
  have hidx : (r.ptr - (4096 * p + headerSize)) / (w.vheaders k).elemSize = i := by
    rw [hptr, show 4096 * p + headerSize = 4096 * p + 64 from rfl, slot_index (by omega)]
  unfold arenaFreeSmall
  change Spec _ _ _ _ (w.setMem w.nvm.mem)
  refine spec_bind.mpr (acquireRun_spec hst fun m₀ hm₀ => ?_)
  obtain ⟨heq₀, -, -⟩ := acquired_facts hm₀ (by decide)
  refine ⟨.small hp hi hptr hm₀ (.before ⟨EqOff.refl _ _ _, rfl, fun _ _ _ _ => rfl,
    fun _ _ => rfl⟩), ?_⟩
  refine spec_bind.mpr (ensureVheader_spec h hp (fun x hx hx' hx'' => heq₀ x (by omega)) ?_)
  rw [spec_bind, spec_get, setMem_vheaders, if_neg (by omega), hidx]
  refine (commitRun_spec (clearNvmBit_marks (by omega)) (by omega) (h.link_inHeap h1)
    (h.link_inHeap h2) hout (by decide) fun m hm => .small hp hi hptr hm₀ hm).bind ?_
  rintro _ _ ⟨m, rfl, hstage, hon⟩
  have hedit := hstage.edit hon hm₀ (by decide) hout
  have h' : ProcInv L (w.setMem (Memory.storeWords w.nvm.mem (linkWords w.nvmStart l1 l2))) live :=
    h.of_heap (h.storeWords hbodies) h.owned rfl rfl rfl rfl
  have hrel := h'.releaseSlot hr hp hi hptr hedit
  rw [spec_modify]
  exact ⟨hrel, ⟨rfl, rfl, rfl, h.table_of_protocol hp (by simp) hbodies hedit.off⟩,
    h.evolves_run hp hbodies hedit, releaseSlot_elemSize ..⟩

/-- Freeing a huge region, active or not. -/
theorem nvmFree_huge_spec (h : ProcInv L w live) {n : ℕ} {b : Bool}
    (htile : L p = some (.huge n (.user b))) (hptr : r.ptr = 4096 * p + 64) (h1 : LinkOk live l1)
    (h2 : LinkOk live l2)
    (hC : ∀ m, HdrProgress w.nvmStart w.nvm.mem (4096 * p) (usageHuge + stateFreeing)
      (usageFree + stateInitialized) l1 l2 m → C { w.nvm with mem := m }) :
    Spec (nvmFree r.ptr l1 l2) C
      (fun _ w' => ∃ L', ProcInv L' w' (dropRegion r.ptr live) ∧ Untouched w w' ∧
        Evolves True L w.nvm.mem L' w'.nvm.mem ∧ L' p = some (.huge n (.pool 0)))
      (fun _ => False) w := by
  have hchunks : field w.nvm.mem (4096 * p) nChunksF = n := (h.nvm.quiet htile).1
  obtain ⟨hmod, hh⟩ := h.huge_ptr htile hptr
  unfold nvmFree
  rw [if_pos hmod]
  simp only [hh]
  refine spec_loadField_then ?_
  rw [hchunks]
  refine (freeHeader_spec h.toHeapInv hptr htile h1 h2 (Or.inr ⟨rfl, rfl⟩) (by decide) hC).bind ?_
  rintro _ w' ⟨hinv, hsame, hstate, hevolves, -⟩
  unfold addFreeChunk
  rw [spec_modify]
  have hsame' : PoolOnly w { w' with
      freeChunks := w'.freeChunks.treeAdd Huge.nChunks ⟨4096 * p, n⟩ } :=
    hsame.trans ⟨⟨rfl, rfl, rfl, fun _ _ => EqOn.refl _ _ _⟩, rfl, rfl, rfl⟩
  exact ⟨_, h.of_poolOnly (hinv.putChunks Layout.set_self hstate) (h.owned.hold.set rfl) hsame',
    hsame'.toUntouched, hevolves.trans (fun _ _ => trivial)
      (.set hinv.nvm.ok Layout.set_self .huge (EqOff.refl _ _ _) fun _ _ => trivial), Layout.set_self⟩

/-- **`nvm_free`** on an active region: it returns, the region is gone from the ledger, and a crash
inside it leaves one of the images of `FreeImage`. -/
theorem nvmFree_spec (h : ProcInv L w live) (hr : r ∈ live) (hactive : r.active = true)
    (h1 : LinkOk live l1) (h2 : LinkOk live l2) :
    Spec (nvmFree r.ptr l1 l2) (FreeImage L w r l1 l2)
      (fun _ w' => ∃ L', ProcInv L' w' (dropRegion r.ptr live) ∧ Untouched w w' ∧
        Evolves True L w.nvm.mem L' w'.nvm.mem) (fun _ => False) w := by
  cases h.live.placed r hr with
  | @huge hlo p htile hptr =>
    rw [hactive] at htile
    refine (nvmFree_huge_spec h htile hptr h1 h2 fun m hm => .huge htile hptr hm).imp ?_
    rintro _ w' ⟨L', hproc, hu, hevolves, -⟩
    exact ⟨L', hproc, hu, hevolves⟩
  | @large hlo hhi p htile hptr =>
    rw [hactive] at htile
    obtain ⟨-, -, hst, -⟩ := h.nvm.quiet htile
    obtain ⟨hmod, hpage⟩ := h.large_ptr htile hptr
    unfold nvmFree arenaFree
    rw [if_neg hmod]
    simp only [hpage]
    refine spec_loadField_then ?_
    rw [hst, if_pos (by decide)]
    refine (arenaFreeLarge_spec h hptr htile h1 h2).imp ?_
    rintro _ w' ⟨L', hproc, hu, hevolves, -⟩
    exact ⟨L', hproc, hu, hevolves⟩
  | @small hsize p k i htile helem hi hptr hbit hnvm =>
    obtain ⟨-, hst, -⟩ : Quiet w.nvm.mem p (.run k) := h.nvm.quiet htile
    obtain ⟨hmod, hpage⟩ := h.small_ptr htile (le_elemSize (h.live.size r hr).1 helem) hi hptr
    unfold nvmFree arenaFree
    rw [if_neg hmod]
    simp only [hpage]
    refine spec_loadField_then ?_
    rw [hst, if_neg (by decide), if_pos (by decide)]
    refine (arenaFreeSmall_spec h hr htile hi hptr h1 h2).imp ?_
    rintro _ w' ⟨hproc, hu, hevolves, -⟩
    exact ⟨L, hproc, hu, hevolves⟩

/-- Every image of a free keeps the layout and the other active regions. -/
theorem FreeImage.image (h : HeapInv L w live) {img : Nvm} (h1 : LinkOk live l1)
    (h2 : LinkOk live l2) (hlinks : B.links = linkWords w.nvmStart l1 l2)
    (himg : FreeImage L w r l1 l2 img) :
    ImgInv L (r.ptr / 4096) img ∧ Kept (dropRegion r.ptr live) L img.mem ∧ Blames B L img := by
  have hbodies := h.live.linkWords w.nvmStart h1 h2
  have hsub : ∀ r' ∈ dropRegion r.ptr live, r' ∈ live := fun r' hr' => (mem_dropRegion.mp hr').1
  have hkept : ∀ {p}, r.ptr = 4096 * p + 64 → (∀ k, L p ≠ some (.run k)) →
      ∀ r' ∈ dropRegion r.ptr live, r'.active = true → r'.ptr / 4096 ≠ p := by
    intro p hptr hrun r' hr' _ hpage
    obtain ⟨hr'live, hne⟩ := mem_dropRegion.mp hr'
    rcases (h.live.placed r' hr'live).cases_tile (h.live.size r' hr'live).1 with
      ⟨q, k, i, hq, hqpage, -⟩ | ⟨q, u, hq, hqpage, -, -, hptr'⟩
    · exact hrun k (by rwa [← hqpage, hpage] at hq)
    · exact hne (by omega)
  cases himg with
  | start => exact ⟨h.nvm.imgInv _, fun r' hr' => h.kept r' (hsub r' hr'), h.nvm.blames B⟩
  | @huge p n m htile hptr hprog =>
    rw [show r.ptr / 4096 = p by omega]
    exact h.image_of_hdrProgress htile hbodies hprog (Or.inr ⟨rfl, Or.inr rfl, Or.inr rfl⟩) h.nvm.log
      hsub (hkept hptr (by simp [htile])) (fun _ _ => Or.inl rfl)
      (fun _ _ _ hst => by
        rw [(h.nvm.quiet htile).2.1] at hst
        exact absurd hst (by decide))
      (fun _ _ hon => absurd (((h.nvm.quiet htile).2.2 rfl).onPtr (by omega)) hon) hlinks
  | @large p n m htile hptr hprog =>
    rw [show r.ptr / 4096 = p by omega]
    exact h.image_of_hdrProgress htile hbodies hprog (Or.inl ⟨rfl, Or.inr rfl, Or.inr rfl⟩) h.nvm.log
      hsub (hkept hptr (by simp [htile])) (fun _ _ => Or.inl rfl) (by simp)
      (fun _ _ hon => absurd (((h.nvm.quiet htile).2.2.2 rfl).onPtr (by omega)) hon) hlinks
  | @small p k i m₀ m htile hi hptr hm₀ hprog =>
    rw [h.page_of_slot htile hi hptr]
    exact h.image_of_runProgress htile hi hbodies hm₀ hprog (Or.inr rfl) (Or.inr rfl) h.nvm.log
      hsub (Or.inr fun r' hr' => hptr ▸ (mem_dropRegion.mp hr').2) (fun _ _ => Or.inl rfl)
      hlinks

end

end NvmMalloc
