import NvmMalloc.Regions

/-!
# Moves of the heap

Every operation changes the layout by a few kinds of moves: a tile changes its header and its owner, a
tile loses its tail to a new one, the heap grows.  Each lemma here says that one move keeps the
invariant, together with the update of the volatile structures that goes with it.
-/

namespace NvmMalloc

open Memory

/-! ## Volatile updates -/

section

variable (w : World) (a a' : ℕ) (t : SearchTree ArenaBlock) (ab ab' : ℕ × ℕ) (b : ArenaBin)

@[simp] theorem setTree_nvm : (w.setTree a t).nvm = w.nvm := rfl
@[simp] theorem setTree_vheaders : (w.setTree a t).vheaders = w.vheaders := rfl
@[simp] theorem setTree_nVheaders : (w.setTree a t).nVheaders = w.nVheaders := rfl
@[simp] theorem setTree_freeChunks : (w.setTree a t).freeChunks = w.freeChunks := rfl
@[simp] theorem setBin_nvm : (w.setBin ab b).nvm = w.nvm := rfl
@[simp] theorem setBin_vheaders : (w.setBin ab b).vheaders = w.vheaders := rfl
@[simp] theorem setBin_nVheaders : (w.setBin ab b).nVheaders = w.nVheaders := rfl
@[simp] theorem setBin_freeChunks : (w.setBin ab b).freeChunks = w.freeChunks := rfl
@[simp] theorem setMem_arenas (m : Mem) : (w.setMem m).arenas = w.arenas := rfl
@[simp] theorem setMem_vheaders (m : Mem) : (w.setMem m).vheaders = w.vheaders := rfl
@[simp] theorem setMem_nVheaders (m : Mem) : (w.setMem m).nVheaders = w.nVheaders := rfl
@[simp] theorem setMem_freeChunks (m : Mem) : (w.setMem m).freeChunks = w.freeChunks := rfl
@[simp] theorem setMem_bin (m : Mem) : (w.setMem m).bin = w.bin := rfl

@[simp] theorem setTree_tree_self : ((w.setTree a t).arenas a).freePageruns = t := by
  simp [World.setTree, World.setArena]

theorem setTree_tree_of_ne (h : a' ≠ a) :
    ((w.setTree a t).arenas a').freePageruns = (w.arenas a').freePageruns := by
  simp [World.setTree, World.setArena, h]

@[simp] theorem setTree_bin : (w.setTree a t).bin = w.bin := by
  funext ab
  by_cases h : ab.1 = a
  · simp [World.bin, World.setTree, World.setArena, h]
  · simp [World.bin, World.setTree, World.setArena, h]

@[simp] theorem setBin_tree :
    ((w.setBin ab b).arenas a).freePageruns = (w.arenas a).freePageruns := by
  by_cases h : a = ab.1
  · simp [World.setBin, World.setArena, h]
  · simp [World.setBin, World.setArena, h]

theorem setBin_bin : (w.setBin ab b).bin = Function.update w.bin ab b := by
  funext ab'
  by_cases h : ab' = ab
  · subst h
    simp [World.bin, World.setBin, World.setArena]
  · rw [Function.update_of_ne h]
    by_cases h1 : ab'.1 = ab.1
    · have h2 : ab'.2 ≠ ab.2 := fun h2 => h (Prod.ext h1 h2)
      simp [World.bin, World.setBin, World.setArena, h1, h2]
    · simp [World.bin, World.setBin, World.setArena, h1]

end

/-! ## Changing one header -/

section

variable {L : Layout} {nvm : Nvm} {w : World} {live : List Region} {B : Blame} {p : ℕ} {t u : Tile}

/-- A log word that names a tile still names something when the tile is relabelled. -/
theorem Logged.set {x : ℕ} (h : Logged L x) (hp : L p = some t)
    (hnames : ∀ x, Names x p t → Names x p u) : Logged (L.set p u) x := by
  obtain ⟨q, v, hq, hn⟩ := h
  by_cases hqp : q = p
  · subst hqp
    have hvt : v = t := Option.some.inj (hq.symm.trans hp)
    subst hvt
    exact ⟨q, u, Layout.set_self, hnames x hn⟩
  · exact ⟨q, v, by rwa [Layout.set_of_ne hqp], hn⟩

/-- A log word still names its tile when a tile is added. -/
theorem Logged.add {x : ℕ} (h : Logged L x) (hp : L p = none) : Logged (L.set p u) x := by
  obtain ⟨q, v, hq, hn⟩ := h
  have hqp : q ≠ p := fun hqp => by rw [hqp, hp] at hq; exact absurd hq (by simp)
  exact ⟨q, v, by rwa [Layout.set_of_ne hqp], hn⟩

/-- A change of one header line stays inside the heap. -/
theorem NvmInv.zero_of_header (h : NvmInv L nvm) {m : Mem} (hp : L p = some t)
    (heq : EqOff nvm.mem m (4096 * p) 64) :
    ∀ x, 4194304 * nvm.nextChunk ≤ x → m x = 0 := by
  intro x hx
  have hend := h.ok.add_len_le hp
  have hpos := h.ok.len_pos hp
  rw [heq x (Or.inr (by lia))]
  exact h.zero x hx

/-- Stores inside a tile leave the object tables alone. -/
theorem NvmInv.table_eqOn (h : NvmInv L nvm) {m : Mem} {a n : ℕ} (hp : L p = some t)
    (hne : t ≠ .arena) (hlo : 4096 * p ≤ a) (hhi : a + n ≤ 4096 * (p + t.len))
    (heq : EqOff nvm.mem m a n) : ∀ c < initialArenas, EqOn nvm.mem m (4194304 * c) 4096 := by
  intro c hc
  have hbase := h.base c hc
  have hcp : 1024 * c ≠ p := fun hcp => hne (by rw [hcp, hp] at hbase; exact Option.some.inj hbase)
  have hd := h.ok.disjoint hp hbase (Ne.symm hcp)
  rw [Tile.len_arena] at hd
  exact heq.eqOn (by lia)

/-- A change of the header of a tile leaves the object tables alone. -/
theorem NvmInv.table_of_header (h : NvmInv L nvm) {m : Mem} (hp : L p = some t) (hne : t ≠ .arena)
    (heq : EqOff nvm.mem m (4096 * p) 64) :
    ∀ c < initialArenas, EqOn nvm.mem m (4194304 * c) 4096 :=
  h.table_eqOn hp hne le_rfl (by have := h.ok.len_pos hp; omega) heq

/-- Relabelling a region that is not a chunk header keeps the initial arenas. -/
theorem NvmInv.base_set (h : NvmInv L nvm) {u : Tile} (hp : L p = some t) (hne : t ≠ .arena) :
    ∀ c < initialArenas, L.set p u (1024 * c) = some .arena := by
  intro c hc
  have hbase := h.base c hc
  have hcp : 1024 * c ≠ p := fun hcp => hne (by rw [hcp, hp] at hbase; exact Option.some.inj hbase)
  rwa [Layout.set_of_ne hcp]

/-- The header of the tile at `p` changes, and with it the tile. -/
theorem NvmInv.setHeader (h : NvmInv L nvm) {m : Mem} (hp : L p = some t)
    (heq : EqOff nvm.mem m (4096 * p) 64) (hlen : u.len = t.len) (hfits : u.Fits p)
    (hquiet : Quiet m p u) (hne : t ≠ .arena)
    (hrun : ∀ k, u = .run k → field m (4096 * p) versionF = 0)
    (hhuge : ∀ n o i, u = .huge n o → i < maxLogEntries → nvm.log i = 4096 * p + 64 →
      field m (4096 * p) stateF ≠ usageHuge + stateInitializing)
    (hnames : ∀ x, Names x p t → Names x p u) : NvmInv (L.set p u) { nvm with mem := m } := by
  refine h.step (h.ok.relabel hp hlen hfits) h.le (fun c hc => ?_) (fun {q v} hq => ?_)
    (h.zero_of_header hp heq) rfl (fun x hx => hx.set hp hnames) rfl (h.table_of_header hp hne heq)
  · exact h.base_set hp hne c hc
  · rcases Layout.set_eq_some hq with ⟨rfl, rfl⟩ | ⟨hqp, hq⟩
    · exact Or.inr ⟨hquiet, hrun, hhuge⟩
    · exact Or.inl ⟨hq, h.ok.eqOn_header heq hp hq hqp⟩

/-- A crash while the header of the tile at `p` changes, when the regions `live'` must survive. -/
theorem HeapInv.crashOk_header (h : HeapInv L w live) {m : Mem} {live' : List Region}
    (hp : L p = some t) (heq : EqOff w.nvm.mem m (4096 * p) 64) (hlen : u.len = t.len)
    (hfits : u.Fits p) (hhdr : HdrOk m p u)
    (hver : ∀ k, u = .run k → field m (4096 * p) versionF = 0) (hne : t ≠ .arena)
    (hstate : field m (4096 * p) stateF = 0 ∨ field m (4096 * p) stateF = usageRun + stateInitialized ∧
      field m (4096 * p) versionF = 0)
    (hnames : ∀ x, Names x p t → Names x p u) (hlive : ∀ r ∈ live', r ∈ live)
    (hkept : ∀ r ∈ live', r.active = true → r.ptr / 4096 = p → KeptRegion (L.set p u) m r)
    (hconv : B.Converts w.nvm (4096 * p + 64)) (hhuge : ∀ n o, u ≠ .huge n o) :
    CrashOk B live' { w.nvm with mem := m } := by
  have hsettled : Settled m p := by
    unfold Settled
    rcases hstate with hst | ⟨hst, -⟩ <;> rw [hst] <;> decide
  refine ⟨L.set p u, p, h.nvm.imgStep (h.nvm.ok.relabel hp hlen hfits) h.nvm.le
    (h.nvm.base_set hp hne) (fun {q v} hq => ?_) rfl (fun x hx => hx.set hp hnames)
    rfl (h.nvm.table_of_header hp hne heq) (fun _ => hsettled), fun r hr hactive => ?_,
    ⟨fun {q n} hq => ?_, fun {q n o} hq hst => ?_, fun {q n o i} hq hi hlog hst => ?_,
      fun {q v} hq hpend => ?_⟩⟩
  · rcases Layout.set_eq_some hq with ⟨rfl, rfl⟩ | ⟨hqp, hq⟩
    · refine Or.inr ⟨hhdr, fun hne => absurd rfl hne, hver, fun n _ => ?_, fun n o _ => ?_⟩
      · rcases hstate with hst | ⟨hst, hv⟩
        · exact ⟨Or.inl hst, fun husage => by rw [hst] at husage; exact absurd husage (by decide)⟩
        · exact ⟨Or.inr (Or.inl hst), fun _ => hv⟩
      · rcases hstate with hst | ⟨hst, -⟩ <;> rw [hst] <;> decide
    · exact Or.inl ⟨hq, h.nvm.ok.eqOn_header heq hp hq hqp⟩
  · by_cases hpage : r.ptr / 4096 = p
    · exact hkept r hr hactive hpage
    · obtain ⟨q, v, hq, -, hqpage, -⟩ := (h.live.placed r (hlive r hr)).span (h.live.size r (hlive r hr))
      refine (h.kept r (hlive r hr) hactive).of_page (h.live.size r (hlive r hr)).1
        (Layout.set_of_ne hpage) ?_
      rw [hqpage]
      exact h.nvm.ok.eqOn_header heq hp hq (hqpage ▸ hpage)
  · rcases Layout.set_eq_some hq with ⟨rfl, -⟩ | ⟨-, hq⟩
    · exact Or.inl hconv
    · exact absurd (h.nvm.quiet hq) id
  · rcases Layout.set_eq_some hq with ⟨rfl, -⟩ | ⟨hqp, hq⟩
    · exact hconv
    · rw [field_eqOn (h.nvm.ok.eqOn_header heq hp hq hqp) (by decide)] at hst
      exact (h.nvm.blames B).zero hq hst
  · rcases Layout.set_eq_some hq with ⟨rfl, hu⟩ | ⟨hqp, hq⟩
    · exact absurd hu.symm (hhuge n o)
    · rw [field_eqOn (h.nvm.ok.eqOn_header heq hp hq hqp) (by decide)] at hst
      exact (h.nvm.blames B).fresh hq hi hlog hst
  · refine absurd hpend (Settled.not_pending ?_)
    rcases Layout.set_eq_some hq with ⟨rfl, -⟩ | ⟨hqp, hq⟩
    · exact hsettled
    · exact (h.nvm.quiet hq).settled.congr (h.nvm.ok.eqOn_header heq hp hq hqp)

/-! ## Owners of page runs and huge regions -/

/-- A page run moves between the pools and the call in progress. -/
theorem HeapInv.relabelBlock (h : HeapInv L w live) {n : ℕ} {o o' : Owner} {w' : World}
    (hp : L p = some (.block n o)) (ho : ∀ b, o ≠ .user b) (ho' : ∀ b, o' ≠ .user b)
    (hpool : PoolInv (L.set p (.block n o')) w') (hnvm : w'.nvm = w.nvm)
    (hH : w'.vheaders = w.vheaders) (hn : w'.nVheaders = w.nVheaders) :
    HeapInv (L.set p (.block n o')) w' live := by
  have hquiet : Quiet w.nvm.mem p (.block n o') := by
    obtain ⟨hnp, ha, hst, -⟩ := h.nvm.quiet hp
    refine ⟨hnp, ha, ?_, fun hu => absurd hu (ho' true)⟩
    rw [hst]
    rcases o with _ | _ | _ | _ <;> rcases o' with _ | _ | _ | _ <;> simp_all [blockState]
  have hfits : (Tile.block n o).Fits p := h.nvm.ok.fits hp
  have hset := h.nvm.setHeader (u := .block n o') hp (EqOff.refl _ _ _) rfl hfits hquiet (by simp)
    (by simp) (by simp) (fun _ hx => hx)
  refine ⟨hnvm ▸ hset, hpool, ?_, ?_⟩
  · refine h.runs.congr (fun q k => Layout.set_eq_some_iff (by simp [hp]) (by simp))
      (fun q k _ => ?_) hH hn
    rw [hnvm]
    exact EqOn.refl _ _ _
  · rw [hnvm, hH]
    exact h.live.congr (fun q k => Layout.set_eq_some_iff (by simp [hp]) (by simp))
      (fun q n' b => Layout.set_eq_some_iff (by simp [hp, ho b]) (by simp [ho' b]))
      (fun q n' b => Layout.set_eq_some_iff (by simp [hp]) (by simp)) (fun _ _ _ _ _ => rfl)
      (fun q k hq => h.slots_le hq) (fun _ _ _ => rfl)

/-- Changing the owner of a page run from a pool. -/
theorem PoolRun.unset {n a a' : ℕ} {o : Owner} {x : ArenaBlock}
    (hp : L p = some (.block n (.pool a))) (ho : ∀ a, o ≠ .pool a) :
    PoolRun (L.set p (.block n o)) a' x ↔ PoolRun L a' x ∧ x ≠ ⟨4096 * p, n, a⟩ := by
  constructor
  · rintro ⟨q, hq, hblock, harena⟩
    rcases Layout.set_eq_some hq with ⟨-, hbad⟩ | ⟨hqp, hq⟩
    · simp only [Tile.block.injEq] at hbad
      exact absurd hbad.2.symm (ho a')
    · refine ⟨⟨q, hq, hblock, harena⟩, fun hx => hqp ?_⟩
      rw [hx] at hblock
      simp only at hblock
      omega
  · rintro ⟨⟨q, hq, hblock, harena⟩, hne⟩
    refine ⟨q, ?_, hblock, harena⟩
    rw [Layout.set_of_ne]
    · exact hq
    · rintro rfl
      rw [hp, Option.some.injEq, Tile.block.injEq, Owner.pool.injEq] at hq
      exact hne (by rw [hq.1, hq.2, ← hblock, ← harena])

/-- Giving a page run to a pool. -/
theorem PoolRun.set {n a a' : ℕ} {o : Owner} {x : ArenaBlock} (hp : L p = some (.block n o))
    (ho : ∀ a, o ≠ .pool a) :
    PoolRun (L.set p (.block n (.pool a))) a' x ↔
      (x = ⟨4096 * p, n, a⟩ ∧ a' = a) ∨ PoolRun L a' x := by
  constructor
  · rintro ⟨q, hq, hblock, harena⟩
    rcases Layout.set_eq_some hq with ⟨rfl, htile⟩ | ⟨-, hq⟩
    · rw [Tile.block.injEq, Owner.pool.injEq] at htile
      exact Or.inl ⟨by rw [← htile.1, ← htile.2, ← hblock, ← harena], htile.2⟩
    · exact Or.inr ⟨q, hq, hblock, harena⟩
  · rintro (⟨rfl, rfl⟩ | ⟨q, hq, hblock, harena⟩)
    · exact ⟨p, Layout.set_self, rfl, rfl⟩
    · have hqp : q ≠ p := by
        rintro rfl
        rw [hp, Option.some.injEq, Tile.block.injEq] at hq
        exact ho a' hq.2
      exact ⟨q, by rwa [Layout.set_of_ne hqp], hblock, harena⟩

theorem PoolChunks.set_block {n : ℕ} {o o' : Owner} {x : Huge} (hp : L p = some (.block n o)) :
    PoolChunks (L.set p (.block n o')) x ↔ PoolChunks L x := by
  simp only [PoolChunks, Layout.set_eq_some_iff (L := L) (p := p) (t := .block n o')
    (u := .huge x.nChunks (.pool 0)) (by simp [hp]) (by simp)]

/-- A page run is unlinked from a tree. -/
theorem HeapInv.takePages (h : HeapInv L w live) {a : ℕ} {x : ArenaBlock}
    (hx : x ∈ (w.arenas a).freePageruns.toList) :
    ∃ p, L p = some (.block x.nPages (.pool a)) ∧ x = ⟨4096 * p, x.nPages, a⟩ ∧
      HeapInv (L.set p (.block x.nPages .held))
        (w.setTree a ((w.arenas a).freePageruns.treeDel x)) live := by
  have hpool := ((h.pool.pages a).mem x).mp hx
  obtain ⟨p, hp, hblock, harena⟩ := hpool
  have hxeq : x = ⟨4096 * p, x.nPages, a⟩ := by rw [← hblock, ← harena]
  refine ⟨p, hp, hxeq, h.relabelBlock hp (by simp) (by simp) ⟨fun a' => ?_, ?_⟩ rfl rfl rfl⟩
  · by_cases ha : a' = a
    · subst ha
      rw [setTree_tree_self]
      refine (h.pool.pages a').treeDel ⟨p, hp, hblock, harena⟩ fun y => ?_
      rw [PoolRun.unset hp (by simp), ← hxeq]
    · rw [setTree_tree_of_ne _ _ _ _ ha]
      refine (h.pool.pages a').congr fun y => ?_
      rw [PoolRun.unset hp (by simp), and_iff_left_iff_imp]
      rintro ⟨q, -, -, hya⟩ rfl
      exact ha hya.symm
  · exact h.pool.chunks.congr fun y => PoolChunks.set_block hp

/-- A page run that nobody else owns is linked into a tree. -/
theorem HeapInv.putPages (h : HeapInv L w live) {n : ℕ} (a : ℕ)
    (hp : L p = some (.block n .held)) :
    HeapInv (L.set p (.block n (.pool a)))
      (w.setTree a ((w.arenas a).freePageruns.treeAdd ArenaBlock.nPages ⟨4096 * p, n, a⟩)) live := by
  refine h.relabelBlock hp (by simp) (by simp) ⟨fun a' => ?_, ?_⟩ rfl rfl rfl
  · by_cases ha : a' = a
    · subst ha
      rw [setTree_tree_self]
      refine (h.pool.pages a').treeAdd ?_ fun y => ?_
      · rintro ⟨q, hq, hblock, -⟩
        have hqp : q = p := by simp only at hblock; omega
        rw [hqp, hp] at hq
        exact absurd hq (by simp)
      · rw [PoolRun.set hp (by simp), and_iff_left rfl]
    · rw [setTree_tree_of_ne _ _ _ _ ha]
      refine (h.pool.pages a').congr fun y => ?_
      rw [PoolRun.set hp (by simp), or_iff_right fun hy => ha hy.2]
  · exact h.pool.chunks.congr fun y => PoolChunks.set_block hp

/-- A huge region moves between the pool and the call in progress. -/
theorem HeapInv.relabelHuge (h : HeapInv L w live) {n : ℕ} {o o' : Owner} {w' : World}
    (hp : L p = some (.huge n o)) (ho : ∀ b, o ≠ .user b) (ho' : ∀ b, o' ≠ .user b)
    (hstate : hugeState o' (field w.nvm.mem (4096 * p) stateF))
    (hpool : PoolInv (L.set p (.huge n o')) w') (hnvm : w'.nvm = w.nvm)
    (hH : w'.vheaders = w.vheaders) (hn : w'.nVheaders = w.nVheaders) :
    HeapInv (L.set p (.huge n o')) w' live := by
  have hquiet : Quiet w.nvm.mem p (.huge n o') :=
    ⟨(h.nvm.quiet hp).1, hstate, fun hu => absurd hu (ho' true)⟩
  have hfits : (Tile.huge n o).Fits p := h.nvm.ok.fits hp
  have hset := h.nvm.setHeader (u := .huge n o') hp (EqOff.refl _ _ _) rfl hfits hquiet (by simp)
    (by simp) (fun _ _ _ _ => h.nvm.logHuge hp) (fun _ hx => hx)
  refine ⟨hnvm ▸ hset, hpool, ?_, ?_⟩
  · refine h.runs.congr (fun q k => Layout.set_eq_some_iff (by simp [hp]) (by simp))
      (fun q k _ => ?_) hH hn
    rw [hnvm]
    exact EqOn.refl _ _ _
  · rw [hnvm, hH]
    exact h.live.congr (fun q k => Layout.set_eq_some_iff (by simp [hp]) (by simp))
      (fun q n' b => Layout.set_eq_some_iff (by simp [hp]) (by simp))
      (fun q n' b => Layout.set_eq_some_iff (by simp [hp, ho b]) (by simp [ho' b]))
      (fun _ _ _ _ _ => rfl) (fun q k hq => h.slots_le hq) (fun _ _ _ => rfl)

theorem PoolRun.set_huge {n a : ℕ} {o o' : Owner} {x : ArenaBlock} (hp : L p = some (.huge n o)) :
    PoolRun (L.set p (.huge n o')) a x ↔ PoolRun L a x := by
  simp only [PoolRun, Layout.set_eq_some_iff (L := L) (p := p) (t := .huge n o')
    (u := .block x.nPages (.pool a)) (by simp [hp]) (by simp)]

/-- Changing the owner of a huge region from the pool. -/
theorem PoolChunks.unset {n : ℕ} {o : Owner} {x : Huge} (hp : L p = some (.huge n (.pool 0)))
    (ho : ∀ a, o ≠ .pool a) :
    PoolChunks (L.set p (.huge n o)) x ↔ PoolChunks L x ∧ x ≠ ⟨4096 * p, n⟩ := by
  constructor
  · rintro ⟨q, hq, hchunk⟩
    rcases Layout.set_eq_some hq with ⟨-, hbad⟩ | ⟨hqp, hq⟩
    · simp only [Tile.huge.injEq] at hbad
      exact absurd hbad.2.symm (ho 0)
    · refine ⟨⟨q, hq, hchunk⟩, fun hx => hqp ?_⟩
      rw [hx] at hchunk
      simp only at hchunk
      omega
  · rintro ⟨⟨q, hq, hchunk⟩, hne⟩
    refine ⟨q, ?_, hchunk⟩
    rw [Layout.set_of_ne]
    · exact hq
    · rintro rfl
      rw [hp, Option.some.injEq, Tile.huge.injEq] at hq
      exact hne (by rw [hq.1, ← hchunk])

/-- Giving a huge region to the pool. -/
theorem PoolChunks.set {n : ℕ} {o : Owner} {x : Huge} (hp : L p = some (.huge n o))
    (ho : ∀ a, o ≠ .pool a) :
    PoolChunks (L.set p (.huge n (.pool 0))) x ↔ x = ⟨4096 * p, n⟩ ∨ PoolChunks L x := by
  constructor
  · rintro ⟨q, hq, hchunk⟩
    rcases Layout.set_eq_some hq with ⟨rfl, htile⟩ | ⟨-, hq⟩
    · rw [Tile.huge.injEq] at htile
      exact Or.inl (by rw [← htile.1, ← hchunk])
    · exact Or.inr ⟨q, hq, hchunk⟩
  · rintro (rfl | ⟨q, hq, hchunk⟩)
    · exact ⟨p, Layout.set_self, rfl⟩
    · have hqp : q ≠ p := by
        rintro rfl
        rw [hp, Option.some.injEq, Tile.huge.injEq] at hq
        exact ho 0 hq.2
      exact ⟨q, by rwa [Layout.set_of_ne hqp], hchunk⟩

/-- A huge region is unlinked from the tree of free chunks. -/
theorem HeapInv.takeChunks (h : HeapInv L w live) {x : Huge} (hx : x ∈ w.freeChunks.toList) :
    ∃ p, L p = some (.huge x.nChunks (.pool 0)) ∧ x = ⟨4096 * p, x.nChunks⟩ ∧
      HeapInv (L.set p (.huge x.nChunks .held)) { w with freeChunks := w.freeChunks.treeDel x }
        live := by
  obtain ⟨p, hp, hchunk⟩ := (h.pool.chunks.mem x).mp hx
  have hxeq : x = ⟨4096 * p, x.nChunks⟩ := by rw [← hchunk]
  refine ⟨p, hp, hxeq, h.relabelHuge hp (by simp) (by simp) (Or.inl (h.nvm.quiet hp).2.1)
    ⟨fun a => ?_, ?_⟩ rfl rfl rfl⟩
  · exact (h.pool.pages a).congr fun y => PoolRun.set_huge hp
  · refine h.pool.chunks.treeDel ⟨p, hp, hchunk⟩ fun y => ?_
    rw [PoolChunks.unset hp (by simp), ← hxeq]

/-- A huge region that nobody else owns is linked into the tree of free chunks. -/
theorem HeapInv.putChunks (h : HeapInv L w live) {n : ℕ} (hp : L p = some (.huge n .held))
    (hstate : field w.nvm.mem (4096 * p) stateF = usageFree + stateInitialized) :
    HeapInv (L.set p (.huge n (.pool 0)))
      { w with freeChunks := w.freeChunks.treeAdd Huge.nChunks ⟨4096 * p, n⟩ } live := by
  refine h.relabelHuge hp (by simp) (by simp) hstate ⟨fun a => ?_, ?_⟩ rfl rfl rfl
  · exact (h.pool.pages a).congr fun y => PoolRun.set_huge hp
  · refine h.pool.chunks.treeAdd ?_ fun y => PoolChunks.set hp (by simp)
    rintro ⟨q, hq, hchunk⟩
    have hqp : q = p := by simp only at hchunk; omega
    rw [hqp, hp] at hq
    exact absurd hq (by simp)

/-! ## Handing a tile to the client -/

/-- A tile nobody else uses becomes the region `r` of the client. -/
theorem LiveInv.addTile {m : Mem} {H : ℕ → ArenaRun} {r : Region} (h : LiveInv L m H live)
    (hp : L p = some t) (ht : ¬ t.Live) (hu : ∀ k, u ≠ .run k)
    (hsize : 1 ≤ r.nBytes ∧ r.nBytes ≤ maxNvmSpace) (hptr : r.ptr = 4096 * p + 64)
    (hplaced : Placed (L.set p u) m H r) : LiveInv (L.set p u) m H (r :: live) := by
  have hold : ∀ {q v}, L.set p u q = some v → q ≠ p → L q = some v := by
    intro q v hq hne
    rwa [Layout.set_of_ne hne] at hq
  have hrun : ∀ {q k}, L.set p u q = some (.run k) → L q = some (.run k) := by
    intro q k hq
    rcases Layout.set_eq_some hq with ⟨-, hbad⟩ | ⟨-, hq⟩
    · exact absurd hbad.symm (hu k)
    · exact hq
  have hkeep : ∀ {q v}, v.Live → L q = some v → L.set p u q = some v := by
    intro q v hv hq
    have hqp : q ≠ p := by
      rintro rfl
      exact ht (Option.some.inj (hp.symm.trans hq) ▸ hv)
    rwa [Layout.set_of_ne hqp]
  refine ⟨?_, ?_, ?_, ?_, ?_, ?_, ?_⟩
  · rw [List.map_cons, List.nodup_cons]
    refine ⟨fun hmem => ?_, h.nodup⟩
    obtain ⟨r', hr', heq⟩ := List.mem_map.mp hmem
    exact h.ptr_ne hp ht r' hr' (by omega)
  · intro r' hr'
    rcases List.mem_cons.mp hr' with rfl | hr'
    · exact hsize
    · exact h.size r' hr'
  · intro r' hr'
    rcases List.mem_cons.mp hr' with rfl | hr'
    · exact hplaced
    · exact (h.placed r' hr').congr (fun q k => hkeep trivial) (fun q n b => hkeep trivial)
        (fun q n b => hkeep trivial) (fun _ _ _ _ _ => rfl) (fun _ _ _ => rfl) (fun _ _ _ _ hb => hb)
  · intro q n b hq
    by_cases hqp : q = p
    · exact ⟨r, List.mem_cons_self, by rw [hqp, hptr]⟩
    · obtain ⟨r', hr', heq⟩ := h.block (hold hq hqp)
      exact ⟨r', List.mem_cons_of_mem r hr', heq⟩
  · intro q n b hq
    by_cases hqp : q = p
    · exact ⟨r, List.mem_cons_self, by rw [hqp, hptr]⟩
    · obtain ⟨r', hr', heq⟩ := h.huge (hold hq hqp)
      exact ⟨r', List.mem_cons_of_mem r hr', heq⟩
  · intro q k i hq hi hbit
    obtain ⟨r', hr', heq⟩ := h.slot (hrun hq) hi hbit
    exact ⟨r', List.mem_cons_of_mem r hr', heq⟩
  · intro q k i hq
    exact h.nvmBit (hrun hq)

/-- A page run goes to the client. -/
theorem HeapInv.giveBlock (h : HeapInv L w live) {n nBytes : ℕ} (hp : L p = some (.block n .held))
    (hlo : sclassSmallMax < nBytes) (hhi : nBytes ≤ sclassLargeMax)
    (hn : n = roundUp nBytes blockSize / blockSize) :
    HeapInv (L.set p (.block n (.user false))) w (⟨4096 * p + 64, nBytes, false⟩ :: live) := by
  have hfits : (Tile.block n .held).Fits p := h.nvm.ok.fits hp
  have hquiet : Quiet w.nvm.mem p (.block n .held) := h.nvm.quiet hp
  refine ⟨?_, ?_, ?_, ?_⟩
  · exact h.nvm.setHeader (u := .block n (.user false)) hp (EqOff.refl _ _ _) rfl hfits
      ⟨hquiet.1, hquiet.2.1, hquiet.2.2.1, by simp⟩ (by simp) (by simp) (by simp) (fun _ hx => hx)
  · refine ⟨fun a => (h.pool.pages a).congr fun x => ?_,
      h.pool.chunks.congr fun x => PoolChunks.set_block hp⟩
    simp only [PoolRun, Layout.set_eq_some_iff (L := L) (p := p) (t := .block n (.user false))
      (u := .block x.nPages (.pool a)) (by simp [hp]) (by simp)]
  · exact h.runs.congr (fun q k => Layout.set_eq_some_iff (by simp [hp]) (by simp))
      (fun _ _ _ => EqOn.refl _ _ _) rfl rfl
  · have hmax : sclassLargeMax ≤ maxNvmSpace := by decide
    refine h.live.addTile hp id (by simp) ⟨?_, ?_⟩ rfl
      (.large hlo hhi (by simp only [Layout.set_self, hn]) rfl)
    · show 1 ≤ nBytes
      omega
    · show nBytes ≤ maxNvmSpace
      omega

/-- A huge region goes to the client. -/
theorem HeapInv.giveHuge (h : HeapInv L w live) {n nBytes : ℕ} (hp : L p = some (.huge n .held))
    (hlo : sclassLargeMax < nBytes) (hhi : nBytes ≤ maxNvmSpace) (hn : n = chunksFor nBytes) :
    HeapInv (L.set p (.huge n (.user false))) w (⟨4096 * p + 64, nBytes, false⟩ :: live) := by
  have hfits : (Tile.huge n .held).Fits p := h.nvm.ok.fits hp
  have hquiet : Quiet w.nvm.mem p (.huge n .held) := h.nvm.quiet hp
  refine ⟨?_, ?_, ?_, ?_⟩
  · exact h.nvm.setHeader (u := .huge n (.user false)) hp (EqOff.refl _ _ _) rfl hfits
      ⟨hquiet.1, hquiet.2.1, by simp⟩ (by simp) (by simp) (fun _ _ _ _ => h.nvm.logHuge hp)
      (fun _ hx => hx)
  · refine ⟨fun a => (h.pool.pages a).congr fun x => PoolRun.set_huge hp,
      h.pool.chunks.congr fun x => ?_⟩
    simp only [PoolChunks, Layout.set_eq_some_iff (L := L) (p := p) (t := .huge n (.user false))
      (u := .huge x.nChunks (.pool 0)) (by simp [hp]) (by simp)]
  · exact h.runs.congr (fun q k => Layout.set_eq_some_iff (by simp [hp]) (by simp))
      (fun _ _ _ => EqOn.refl _ _ _) rfl rfl
  · refine h.live.addTile hp id (by simp) ⟨?_, hhi⟩ rfl
      (.huge hlo (by simp only [Layout.set_self, hn]) rfl)
    show 1 ≤ nBytes
    omega

/-! ## Writes outside the headers -/

/-- Bytes change inside the heap but outside the headers. -/
theorem HeapInv.setBody (h : HeapInv L w live) {m : Mem}
    (heq : ∀ {q u}, L q = some u → EqOn w.nvm.mem m (4096 * q) 64)
    (hzero : ∀ x, 4194304 * w.nvm.nextChunk ≤ x → m x = 0) (hslots : SlotsOk L m) :
    HeapInv L (w.setMem m) live where
  nvm := h.nvm.body heq hzero hslots
  pool := h.pool.congr (fun _ _ _ => Iff.rfl) (fun _ _ _ => Iff.rfl) (fun _ => rfl) rfl
  runs := h.runs.congr (fun _ _ => Iff.rfl) (fun _ _ hq => heq hq) rfl rfl
  live := h.live.congr (fun _ _ => Iff.rfl) (fun _ _ _ => Iff.rfl) (fun _ _ _ => Iff.rfl)
    (fun _ _ _ hq hi => bitmapBit_eqOn (heq hq) hi) (fun _ _ hq => h.slots_le hq) (fun _ _ _ => rfl)

/-- A write into the body of a tile. -/
theorem HeapInv.body (h : HeapInv L w live) {m : Mem} {a n : ℕ} (hbody : L.Body a n)
    (heq : EqOff w.nvm.mem m a n) : HeapInv L (w.setMem m) live := by
  refine h.setBody (fun hq => hbody.eqOn h.nvm.ok heq hq) (fun x hx => ?_)
    (h.nvm.slots.congr (fun c hc => ?_) fun _ hx => hx)
  · have hend := hbody.lt h.nvm.ok
    rw [heq x (Or.inr (by omega))]
    exact h.nvm.zero x hx
  · have hd := hbody.disjoint_arena h.nvm.ok (h.nvm.base c hc)
    exact heq.eqOn (by omega)

/-! ## Splitting -/

/-- NVM when the tile at `p` loses its last `k` pages to a new tile. -/
theorem NvmInv.split (h : NvmInv L nvm) {m : Mem} {k : ℕ} {u v : Tile} (hp : L p = some t)
    (hk : 0 < k) (hkt : k < t.len) (heq : EqOff nvm.mem m (4096 * p) 64) (h₁ : u.len = t.len - k)
    (h₂ : v.len = k) (hfits₁ : u.Fits p) (hfits₂ : v.Fits (p + t.len - k)) (hq₁ : Quiet m p u)
    (hq₂ : Quiet m (p + t.len - k) v) (hne : t ≠ .arena) (hrun₁ : ∀ k, u ≠ .run k)
    (hrun₂ : ∀ k', v = .run k' → field m (4096 * (p + t.len - k)) versionF = 0)
    (hhuge₁ : ∀ n o, u = .huge n o → field m (4096 * p) stateF ≠ usageHuge + stateInitializing)
    (hhuge₂ : ∀ n o, v = .huge n o →
      field m (4096 * (p + t.len - k)) stateF ≠ usageHuge + stateInitializing)
    (hnames : ∀ x, Names x p t → Names x p u) :
    NvmInv ((L.set p u).set (p + t.len - k) v) { nvm with mem := m } := by
  have htail : L (p + t.len - k) = none := h.ok.none_inside hp (by omega) (by omega)
  have htail' : L.set p u (p + t.len - k) = none := by rwa [Layout.set_of_ne (by omega)]
  refine h.step (h.ok.split hp hk hkt h₁ h₂ hfits₁ hfits₂) h.le (fun c hc => ?_)
    (fun {q x} hq => ?_) (h.zero_of_header hp heq) rfl (fun x hx => (hx.set hp hnames).add htail') rfl
    (h.table_of_header hp hne heq)
  · have hbase := h.base c hc
    have hcp : 1024 * c ≠ p := fun hcp => hne (by rw [hcp, hp] at hbase; exact Option.some.inj hbase)
    have hcq : 1024 * c ≠ p + t.len - k := fun hcq => by
      rw [hcq, htail] at hbase
      exact absurd hbase (by simp)
    rwa [Layout.set_of_ne hcq, Layout.set_of_ne hcp]
  · rcases Layout.set_eq_some hq with ⟨rfl, rfl⟩ | ⟨-, hq⟩
    · exact Or.inr ⟨hq₂, hrun₂, fun n o _ hu _ _ => hhuge₂ n o hu⟩
    · rcases Layout.set_eq_some hq with ⟨rfl, rfl⟩ | ⟨hqp, hq⟩
      · exact Or.inr ⟨hq₁, fun k' hk' => absurd hk' (hrun₁ k'), fun n o _ hu _ _ => hhuge₁ n o hu⟩
      · exact Or.inl ⟨hq, h.ok.eqOn_header heq hp hq hqp⟩

/-- Tiles in the hands of the call in progress. -/
def Tile.Held : Tile → Prop
  | .block _ .held => True
  | .huge _ .held => True
  | _ => False

/-- Tiles that may stand between two calls: none is in the hands of a call, and every pool exists. -/
def Tile.Owned : Tile → Prop
  | .arena | .run _ | .block _ (.user _) | .huge _ (.user _) => True
  | .block _ (.pool a) => a < initialArenas
  | .huge _ (.pool a) => a = 0
  | .block _ .held | .huge _ .held | .stuck _ => False

/-- Every tile has an owner between two calls. -/
def Layout.Owned (L : Layout) : Prop := ∀ ⦃q t⦄, L q = some t → t.Owned

/-- Every tile but the one at `p` has an owner between two calls. -/
def Layout.OwnedBut (L : Layout) (p : ℕ) : Prop := ∀ ⦃q t⦄, L q = some t → q ≠ p → t.Owned

theorem Layout.Owned.set (h : L.Owned) (ht : t.Owned) : (L.set p t).Owned := by
  intro q v hq
  rcases Layout.set_eq_some hq with ⟨rfl, rfl⟩ | ⟨-, hq⟩
  · exact ht
  · exact h hq

theorem Layout.Owned.hold (h : L.Owned) : (L.set p t).OwnedBut p := by
  intro q v hq hne
  rw [Layout.set_of_ne hne] at hq
  exact h hq

theorem Layout.OwnedBut.set (h : L.OwnedBut p) (ht : t.Owned) : (L.set p t).Owned := by
  intro q v hq
  rcases Layout.set_eq_some hq with ⟨rfl, rfl⟩ | ⟨hne, hq⟩
  · exact ht
  · exact h hq hne

theorem Layout.OwnedBut.owned (h : L.OwnedBut p) (hp : L p = some t) (ht : t.Owned) : L.Owned := by
  intro q v hq
  by_cases hne : q = p
  · subst hne
    rw [hp] at hq
    exact Option.some.inj hq ▸ ht
  · exact h hq hne

/-- The tail `q` of a tile goes one way and its head `p` the other. -/
theorem Layout.OwnedBut.split {q : ℕ} {t₁ t₂ : Tile} (h : L.OwnedBut p) (ht : t.Owned) :
    (((L.set p t₁).set q t₂).set p t).OwnedBut q := by
  intro x v hx hne
  rcases Layout.set_eq_some hx with ⟨rfl, rfl⟩ | ⟨hxp, hx⟩
  · exact ht
  · rw [Layout.set_of_ne hne, Layout.set_of_ne hxp] at hx
    exact h hx hxp

/-- The tiles that `set` neither adds nor removes when it splits `p`. -/
theorem Layout.split_eq_some_iff {q x : ℕ} {t₁ t₂ v : Tile} (hp : L p = some t) (hq : L q = none)
    (ht : t ≠ v) (ht₁ : t₁ ≠ v) (ht₂ : t₂ ≠ v) :
    (L.set p t₁).set q t₂ x = some v ↔ L x = some v := by
  have hqp : q ≠ p := by
    rintro rfl
    rw [hp] at hq
    exact absurd hq (by simp)
  rw [Layout.set_eq_some_iff (by rw [Layout.set_of_ne hqp, hq]; simp) ht₂,
    Layout.set_eq_some_iff (by rw [hp]; simpa using ht) ht₁]

/-- A tile held by the call is split in two. -/
theorem HeapInv.splitHeld (h : HeapInv L w live) {m : Mem} {q : ℕ} {t₁ t₂ : Tile}
    (hp : L p = some t) (hq : L q = none)
    (hnvm : NvmInv ((L.set p t₁).set q t₂) { w.nvm with mem := m })
    (heq : EqOff w.nvm.mem m (4096 * p) 64) (ht : t.Held) (ht₁ : t₁.Held) (ht₂ : t₂.Held) :
    HeapInv ((L.set p t₁).set q t₂) (w.setMem m) live := by
  have hiff : ∀ {v : Tile} (_ : ¬ v.Held) x,
      (L.set p t₁).set q t₂ x = some v ↔ L x = some v := by
    intro v hv x
    refine Layout.split_eq_some_iff hp hq ?_ ?_ ?_
    · rintro rfl; exact hv ht
    · rintro rfl; exact hv ht₁
    · rintro rfl; exact hv ht₂
  have hline : ∀ x k, L x = some (.run k) → EqOn w.nvm.mem m (4096 * x) 64 := by
    intro x k hx
    refine h.nvm.ok.eqOn_header heq hp hx ?_
    rintro rfl
    rw [hp] at hx
    rw [Option.some.inj hx] at ht
    exact ht
  refine ⟨hnvm, ?_, ?_, ?_⟩
  · exact h.pool.congr (fun x n a => hiff id x) (fun x n a => hiff id x) (fun _ => rfl) rfl
  · exact h.runs.congr (fun x k => hiff id x) hline rfl rfl
  · exact h.live.congr (fun x k => hiff id x) (fun x n b => hiff id x) (fun x n b => hiff id x)
      (fun x k i hx hi => bitmapBit_eqOn (hline x k hx) hi) (fun x k hx => h.slots_le hx)
      (fun _ _ _ => rfl)

/-- A new run with a fresh VHeader joins the layout, in the place of tiles held by the call. -/
theorem HeapInv.addRun (h : HeapInv L w live) {L' : Layout} {m : Mem} {H : ℕ → ArenaRun} {q : ℕ}
    (hnvm : NvmInv L' { w.nvm with mem := m })
    (hiff : ∀ {v : Tile}, ¬ v.Held → (∀ k, v ≠ .run k) → ∀ x, L' x = some v ↔ L x = some v)
    (hrun : ∀ x k, L' x = some (.run k) ↔ (x = q ∧ k = w.nVheaders) ∨ L x = some (.run k))
    (hline : ∀ x k, L x = some (.run k) → EqOn w.nvm.mem m (4096 * x) 64)
    (hH : ∀ k, k ≠ w.nVheaders → H k = w.vheaders k) (hof : RunOf m H q w.nVheaders)
    (hbitmap : ∀ i, (H w.nVheaders).bitmap i = false)
    (hbits : ∀ i < 64, bitmapBit m (4096 * q) i = false) :
    HeapInv L' { w.setMem m with vheaders := H, nVheaders := w.nVheaders + 1 } live := by
  have hne : ∀ {x k}, L x = some (.run k) → k ≠ w.nVheaders := by
    intro x k hx
    have := (h.runs.run hx).1
    omega
  have hHk : ∀ {x k}, L x = some (.run k) → H k = w.vheaders k := fun hx => hH _ (hne hx)
  refine ⟨hnvm, ?_, ⟨?_, ?_⟩, ?_⟩
  · exact h.pool.congr (fun x n a => hiff id (by simp) x) (fun x n a => hiff id (by simp) x)
      (fun _ => rfl) rfl
  · intro x k hx
    rcases (hrun x k).mp hx with ⟨rfl, rfl⟩ | hx
    · exact ⟨Nat.lt_succ_self _, hof⟩
    · obtain ⟨hk, hrunOf⟩ := h.runs.run hx
      have hHk := hHk hx
      exact ⟨Nat.lt_succ_of_lt hk, hrunOf.congr (hline x k hx) (by rw [← hHk]) (by rw [← hHk])
        (by rw [← hHk]) (by rw [← hHk])⟩
  · intro k hk
    by_cases hkn : k = w.nVheaders
    · exact ⟨q, (hrun q k).mpr (Or.inl ⟨rfl, hkn⟩)⟩
    · obtain ⟨x, hx⟩ := h.runs.tile k (by simp only at hk; omega)
      exact ⟨x, (hrun x k).mpr (Or.inr hx)⟩
  · refine ⟨h.live.nodup, h.live.size, fun r hr => ?_, fun hx => ?_, fun hx => ?_, ?_, ?_⟩
    · refine (h.live.placed r hr).congr (fun x k hx => (hrun x k).mpr (Or.inr hx))
        (fun x n b => (hiff id (by simp) x).mpr) (fun x n b => (hiff id (by simp) x).mpr)
        (fun x k i hx hi => bitmapBit_eqOn (hline x k hx) ?_) (fun x k hx => by simp only [hHk hx])
        (fun x k i hx hb => by simp only [hHk hx]; exact hb)
      have := h.slots_le hx
      omega
    · exact h.live.block ((hiff id (by simp) _).mp hx)
    · exact h.live.huge ((hiff id (by simp) _).mp hx)
    · intro x k i hx hi hbit
      rcases (hrun x k).mp hx with ⟨rfl, rfl⟩ | hx
      · simp only [hbitmap] at hbit
        exact absurd hbit (by simp)
      · simp only [hHk hx] at hi hbit ⊢
        exact h.live.slot hx hi hbit
    · intro x k i hx hi hbit
      rcases (hrun x k).mp hx with ⟨rfl, rfl⟩ | hx
      · simp only [setMem_nvm, hbits i hi] at hbit
        exact absurd hbit (by simp)
      · simp only [setMem_nvm, bitmapBit_eqOn (hline x k hx) hi] at hbit
        simp only [hHk hx]
        exact h.live.nvmBit hx hi hbit

end

end NvmMalloc
