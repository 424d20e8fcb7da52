import NvmMalloc.FreeSpec

/-!
# Fresh start

Reference: `src/nvm_malloc.c` (`nvm_initialize_empty`), `src/arena.c` (`arena_init`).

The first block of every initial chunk keeps 254 pages until `arena_init` gives it all 1023: the
`memset` of its header starts inside `n_pages`.  Behind those 254 pages there are zeros, at which the
recovery thread makes no progress, so no crash inside the initialisation leaves an image on which
recovery completes.
-/

namespace NvmMalloc

open Memory CrashM

/-! ## Layouts of a heap under construction -/

/-- The first `k` chunks as `nvm_initialize_empty` leaves them. -/
def initialLayout (k : ℕ) : Layout := fun p =>
  if p < 1024 * k then
    if p % 1024 = 0 then some .arena
    else if p % 1024 = 1 then some (.block 1023 (.pool (p / 1024)))
    else none
  else none

theorem initialLayout_succ (k : ℕ) : initialLayout (k + 1) =
    ((initialLayout k).set (1024 * k) .arena).set (1024 * k + 1) (.block 1023 (.pool k)) := by
  funext p
  by_cases h1 : p = 1024 * k + 1
  · subst h1
    rw [Layout.set_self, initialLayout, if_pos (by omega), if_neg (by omega), if_pos (by omega)]
    congr
    omega
  · rw [Layout.set_of_ne h1]
    by_cases h0 : p = 1024 * k
    · subst h0
      rw [Layout.set_self, initialLayout, if_pos (by omega), if_pos (by omega)]
    · rw [Layout.set_of_ne h0]
      unfold initialLayout
      by_cases hp : p < 1024 * k
      · rw [if_pos hp, if_pos (by omega)]
      · by_cases hp' : p < 1024 * (k + 1)
        · rw [if_pos hp', if_neg hp, if_neg (by omega), if_neg (by omega)]
        · rw [if_neg hp', if_neg hp]

theorem initialLayout_ok (k : ℕ) : (initialLayout k).Ok k := by
  induction k with
  | zero =>
    have hnone : ∀ p, initialLayout 0 p = none := fun p => by
      rw [initialLayout, if_neg (by omega)]
    refine ⟨?_, fun hp => ?_⟩
    · have : (fun p => (initialLayout 0 p).map Tile.len) = fun _ => none := by
        funext p
        rw [hnone, Option.map_none]
      rw [this]
      exact Tiling.empty 0
    · rw [hnone] at hp
      exact absurd hp (by simp)
  | succ k ih =>
    rw [initialLayout_succ]
    exact ih.growChunk rfl ⟨by omega, by omega⟩

theorem initialLayout_arena {k c : ℕ} (hc : c < k) : initialLayout k (1024 * c) = some .arena := by
  rw [initialLayout, if_pos (by omega), if_pos (by omega)]

theorem initialLayout_cases {k p : ℕ} {t : Tile} (h : initialLayout k p = some t) :
    ∃ c < k, (p = 1024 * c ∧ t = .arena) ∨ (p = 1024 * c + 1 ∧ t = .block 1023 (.pool c)) := by
  unfold initialLayout at h
  split at h
  · refine ⟨p / 1024, by omega, ?_⟩
    split at h
    · exact Or.inl ⟨by omega, (Option.some.inj h).symm⟩
    · split at h
      · exact Or.inr ⟨by omega, (Option.some.inj h).symm⟩
      · exact absurd h (by simp)
  · exact absurd h (by simp)

/-- The first `k` chunks are done, chunk `k` has a header page and a block of `n` pages, and behind that
the walk is stuck. -/
def stuckLayout (k n : ℕ) : Layout :=
  (((initialLayout k).set (1024 * k) .arena).set (1024 * k + 1) (.block n .held)).set
    (1024 * k + 1 + n) (.stuck (20480 - (1024 * k + 1 + n)))

theorem stuckLayout_ok {k n : ℕ} (hk : k < 20) (hn : 0 < n) (hn' : n ≤ 1022) :
    (stuckLayout k n).Ok 20 := by
  have happ := (initialLayout_ok k).append (k := 20 - k) (t := .stuck (1024 * (20 - k))) (by omega) rfl
    trivial
  rw [show k + (20 - k) = 20 by omega] at happ
  -- first the header page, then the block
  have hsplit := happ.split (k := 20480 - (1024 * k + 1)) (u := .arena)
    (v := .stuck (20480 - (1024 * k + 1))) Layout.set_self (by omega) (by rw [Tile.len_stuck]; omega)
    (by simp only [Tile.len_arena, Tile.len_stuck]; omega) rfl (Nat.mul_mod_right 1024 k) trivial
  rw [Layout.set_set, show 1024 * k + (Tile.stuck (1024 * (20 - k))).len - (20480 - (1024 * k + 1)) =
    1024 * k + 1 by rw [Tile.len_stuck]; omega] at hsplit
  have hsplit' := hsplit.split (k := 20480 - (1024 * k + 1 + n)) (u := .block n .held)
    (v := .stuck (20480 - (1024 * k + 1 + n))) Layout.set_self (by omega)
    (by rw [Tile.len_stuck]; omega) (by simp only [Tile.len_block, Tile.len_stuck]; omega) rfl
    ⟨by omega, by omega⟩ trivial
  rwa [Layout.set_set, show 1024 * k + 1 + (Tile.stuck (20480 - (1024 * k + 1))).len -
    (20480 - (1024 * k + 1 + n)) = 1024 * k + 1 + n by rw [Tile.len_stuck]; omega] at hsplit'

/-! ## The memory of a heap under construction -/

/-- Chunk `c` during the initialisation: the state of its header, its empty object table, and the state,
size and arena of its first block. -/
structure ChunkSetup (m : Mem) (c st blockSt nPages arena : ℕ) : Prop where
  state : field m (4194304 * c) stateF = st
  nextOt : field m (4194304 * c) nextOtChunkF = if c < 19 then 4194304 * (c + 1) else 0
  table : ∀ x, 4194304 * c + 64 ≤ x → x < 4194304 * c + 4096 → m x = 0
  blockState : field m (4194304 * c + 4096) stateF = blockSt
  pages : field m (4194304 * c + 4096) nPagesF = nPages
  arenaId : field m (4194304 * c + 4096) blockArenaIdF = arena

theorem ChunkSetup.congr {m m' : Mem} {c st blockSt nPages arena : ℕ}
    (h : ChunkSetup m c st blockSt nPages arena) (heq : EqOn m m' (4194304 * c) 8192) :
    ChunkSetup m' c st blockSt nPages arena := by
  have hhdr : EqOn m m' (4194304 * c) 64 := heq.mono le_rfl (by omega)
  have hblock : EqOn m m' (4194304 * c + 4096) 64 := heq.mono (by omega) (by omega)
  refine ⟨?_, ?_, fun x hx hx' => ?_, ?_, ?_, ?_⟩
  · rw [field_eqOn hhdr (by decide), h.state]
  · rw [field_eqOn hhdr (by decide), h.nextOt]
  · rw [heq x (by omega) (by omega), h.table x hx hx']
  · rw [field_eqOn hblock (by decide), h.blockState]
  · rw [field_eqOn hblock (by decide), h.pages]
  · rw [field_eqOn hblock (by decide), h.arenaId]

/-- An empty object table. -/
theorem slots_idle_of_zero {m : Mem}
    (hz : ∀ c < 20, ∀ x, 4194304 * c + 64 ≤ x → x < 4194304 * c + 4096 → m x = 0) :
    ∀ s < 1260, field m (otSlotAddr s) stateF ≠ stateInitializing := by
  intro s hs hst
  have hbounds := otSlotAddr_bounds (s := s)
  have hzero : field m (otSlotAddr s) stateF = 0 := by
    refine field_eq_zero fun x hx hx' => hz (s / 63) (by omega) x ?_ ?_ <;>
      simp only [stateF] at hx hx' <;> omega
  rw [hzero] at hst
  exact absurd hst (by decide)

/-- An image without log entries, runs and live regions. -/
theorem crashOk_nil {L : Layout} {img : Nvm} (hok : L.Ok img.nextChunk)
    (hle : img.nextChunk ≤ maxNvmChunks)
    (hbase : (∀ p n, L p ≠ some (.stuck n)) → ∀ c < initialArenas, c < img.nextChunk →
      L (1024 * c) = some .arena)
    (hdr : ∀ {p t}, L p = some t → Formed img.mem p t) (hlog : ∀ i, img.log i = 0)
    (hslots : ∀ s < 1260, field img.mem (otSlotAddr s) stateF ≠ stateInitializing) :
    CrashOk .growth [] img := by
  have hnamed : ∀ {i q}, img.log i ≠ 4096 * q + 64 := fun {i q} => by
    rw [hlog i]
    omega
  have hmention : ∀ {q}, ¬ Mentions img (4096 * q + 64) := by
    rintro q (⟨i, -, hlog'⟩ | ⟨s, hs, hst, -⟩)
    · exact hnamed hlog'
    · exact hslots s hs hst
  refine ⟨L, 0, ?_, by simp [Kept], ?_⟩
  · exact ⟨hok, hle, hbase, fun hp => (hdr hp).hdr, fun hp _ => (hdr hp).settled,
      fun i _ hne => absurd (hlog i) hne, fun _ _ _ hne => absurd (hlog _) hne,
      fun hp => absurd rfl ((hdr hp).noRun _), fun hp husage => absurd husage (hdr hp).usage,
      fun _ _ _ hq => (hdr hq).settled, fun _ _ i _ => hlog i,
      fun s hs hst => absurd hst (hslots s hs)⟩
  · exact ⟨fun hp => Or.inr ⟨trivial, (hdr hp).usage, hmention⟩,
      fun hp hst => absurd hst ((hdr hp).nonzero _ _ rfl), fun _ _ hlog' => absurd hlog' hnamed,
      fun hp hpend => absurd hpend (hdr hp).settled.not_pending⟩

/-- The header page of an arena chunk. -/
theorem hdrOk_arena {m : Mem} {c st : ℕ} (hst : field m (4194304 * c) stateF = st)
    (hkind : st = usageArena + stateInitializing ∨ st = usageArena + stateInitialized) :
    Formed m (1024 * c) .arena := by
  have hB : 4096 * (1024 * c) = 4194304 * c := by omega
  refine ⟨?_, ?_, by simp, ?_, by simp⟩
  all_goals
    simp only [HdrOk, Settled, hB, hst]
    rcases hkind with rfl | rfl <;> decide

/-- The first block of an arena chunk. -/
theorem hdrOk_block {m : Mem} {c st n : ℕ} {o : Owner}
    (hst : field m (4194304 * c + 4096) stateF = st)
    (hkind : st = usageFree + stateInitializing ∨ st = usageFree + stateInitialized)
    (hn : field m (4194304 * c + 4096) nPagesF = n)
    (ha : field m (4194304 * c + 4096) blockArenaIdF < initialArenas) :
    Formed m (1024 * c + 1) (.block n o) := by
  have hB : 4096 * (1024 * c + 1) = 4194304 * c + 4096 := by omega
  refine ⟨⟨hB ▸ hn, hB ▸ ha, ?_⟩, ?_, by simp, ?_, fun _ _ _ => ?_⟩
  all_goals
    simp only [Settled, hB, hst]
    rcases hkind with rfl | rfl <;> decide

/-- A page of zeros that is not the first of its chunk. -/
theorem hdrOk_stuck {m : Mem} {p n : ℕ} (hp : p % 1024 ≠ 0)
    (hz : ∀ x, 4096 * p ≤ x → x < 4096 * p + 64 → m x = 0) :
    Formed m p (.stuck n) := by
  have hzero : ∀ f : NvmField, f.off + f.width ≤ 64 → field m (4096 * p) f = 0 :=
    fun f hf => field_eq_zero fun x hx hx' => hz x (by omega) (by omega)
  refine ⟨?_, ?_, by simp, ?_, by simp⟩
  all_goals
    simp only [HdrOk, StuckHdr, Settled, if_neg hp, hzero stateF (by decide),
      hzero nPagesF (by decide), hzero nBytesF (by decide)]
    decide

/-- Chunk `c` has a header and a first block of `n` pages. -/
def Formatted (m : Mem) (c n : ℕ) : Prop :=
  ∃ st blockSt arena, (st = usageArena + stateInitializing ∨ st = usageArena + stateInitialized) ∧
    (blockSt = usageFree + stateInitializing ∨ blockSt = usageFree + stateInitialized) ∧
    arena < initialArenas ∧ ChunkSetup m c st blockSt n arena

theorem Formatted.table {m : Mem} {c n : ℕ} (h : Formatted m c n) :
    ∀ x, 4194304 * c + 64 ≤ x → x < 4194304 * c + 4096 → m x = 0 := by
  obtain ⟨_, _, _, -, -, -, hset⟩ := h
  exact hset.table

/-- Nothing is stored behind the first two pages of a chunk or into its object table. -/
structure Blank (m : Mem) : Prop where
  pages : ∀ x, 8192 ≤ x % 4194304 ∨ 83886080 ≤ x → m x = 0
  tables : ∀ c < 20, ∀ x, 4194304 * c + 64 ≤ x → x < 4194304 * c + 4096 → m x = 0

theorem Blank.congr {m m' : Mem} {c : ℕ} (h : Blank m) (hc : c < 20)
    (heq : EqOff m m' (4194304 * c) 8192)
    (htable : ∀ x, 4194304 * c + 64 ≤ x → x < 4194304 * c + 4096 → m' x = 0) : Blank m' where
  pages x hx := by rw [heq x (by omega), h.pages x hx]
  tables d hd x hx hx' := by
    by_cases hdc : d = c
    · exact htable x (hdc ▸ hx) (hdc ▸ hx')
    · rw [heq x (by omega), h.tables d hd x hx hx']

/-- A crash while the first `k` chunks are done and chunk `k` has a block that is too small. -/
theorem crashOk_formatted {m : Mem} {log : ℕ → ℕ} {k n : ℕ} (hk : k < 20) (hn : 0 < n)
    (hn' : n ≤ 1022) (hlog : ∀ i, log i = 0) (hgood : ∀ c < k, Formatted m c 1023)
    (hnext : Formatted m k n) (hblank : Blank m) : CrashOk .growth [] ⟨m, 20, 1, log⟩ := by
  refine crashOk_nil (stuckLayout_ok hk hn hn') (show 20 ≤ maxNvmChunks by decide)
    (fun hno => absurd Layout.set_self (hno _ _)) (fun {p t} hp => ?_) hlog
    (slots_idle_of_zero hblank.tables)
  rcases Layout.set_eq_some hp with ⟨rfl, rfl⟩ | ⟨-, hp⟩
  · exact hdrOk_stuck (by omega) fun x hx hx' => hblank.pages x (by omega)
  · rcases Layout.growChunk_cases hp with ⟨rfl, rfl⟩ | ⟨rfl, rfl⟩ | hp
    · obtain ⟨_, blockSt, arena, -, hblock, ha, hset⟩ := hnext
      exact hdrOk_block hset.blockState hblock hset.pages (hset.arenaId ▸ ha)
    · obtain ⟨st, _, _, hst, -, -, hset⟩ := hnext
      exact hdrOk_arena hset.state hst
    · obtain ⟨c, hc, ⟨rfl, rfl⟩ | ⟨rfl, rfl⟩⟩ := initialLayout_cases hp
      · obtain ⟨st, _, _, hst, -, -, hset⟩ := hgood c hc
        exact hdrOk_arena hset.state hst
      · obtain ⟨_, blockSt, arena, -, hblock, ha, hset⟩ := hgood c hc
        exact hdrOk_block hset.blockState hblock hset.pages (hset.arenaId ▸ ha)

/-- A crash after the last chunk has got its pages. -/
theorem crashOk_allFormatted {m : Mem} {log : ℕ → ℕ} (hlog : ∀ i, log i = 0)
    (hgood : ∀ c < 20, Formatted m c 1023) : CrashOk .growth [] ⟨m, 20, 1, log⟩ := by
  refine crashOk_nil (initialLayout_ok 20) (show 20 ≤ maxNvmChunks by decide)
    (fun _ c hc _ => initialLayout_arena hc) (fun {p t} hp => ?_) hlog
    (slots_idle_of_zero fun c hc x hx hx' => ?_)
  swap
  · exact (hgood c hc).table x hx hx'
  obtain ⟨c, hc, ⟨rfl, rfl⟩ | ⟨rfl, rfl⟩⟩ := initialLayout_cases hp
  · obtain ⟨st, _, _, hst, -, -, hset⟩ := hgood c hc
    exact hdrOk_arena hset.state hst
  · obtain ⟨_, blockSt, arena, -, hblock, ha, hset⟩ := hgood c hc
    exact hdrOk_block hset.blockState hblock hset.pages (hset.arenaId ▸ ha)

/-- A crash before the first chunk has a block: the walk is stuck on its second page. -/
theorem crashOk_unformatted {m : Mem} {log : ℕ → ℕ} (hlog : ∀ i, log i = 0)
    (hst : field m 0 stateF = usageArena + stateInitializing)
    (hblock : field m 4096 stateF = 0 ∨ field m 4096 stateF = usageFree + stateInitializing)
    (hn : field m 4096 nPagesF = 0) (hblank : Blank m) : CrashOk .growth [] ⟨m, 20, 1, log⟩ := by
  have happ := (initialLayout_ok 0).append (k := 20) (t := .stuck 20480) (by omega) rfl trivial
  have hsplit := happ.split (k := 20479) (u := .arena) (v := .stuck 20479) Layout.set_self (by omega)
    (by simp) (by simp) rfl rfl trivial
  rw [Layout.set_set] at hsplit
  refine crashOk_nil hsplit (show 20 ≤ maxNvmChunks by decide)
    (fun hno => absurd Layout.set_self (hno _ _)) (fun {p t} hp => ?_) hlog
    (slots_idle_of_zero hblank.tables)
  rcases Layout.set_eq_some hp with ⟨rfl, rfl⟩ | ⟨-, hp⟩
  · have husage : getUsage (field m 4096 stateF) ≠ usageRun := by
      rcases hblock with hblock | hblock <;> rw [hblock] <;> decide
    show Formed m 1 (.stuck 20479)
    refine ⟨Or.inr ⟨husage, hn⟩, ?_, by simp, husage, by simp⟩
    unfold Settled
    rcases hblock with hblock | hblock <;> rw [Nat.mul_one, hblock] <;> decide
  · rcases Layout.set_eq_some hp with ⟨rfl, rfl⟩ | ⟨-, hp⟩
    · exact hdrOk_arena (c := 0) hst (Or.inl rfl)
    · obtain ⟨c, hc, -⟩ := initialLayout_cases hp
      omega

/-- A crash before anything is written to the chunks. -/
theorem crashOk_unwritten {m : Mem} {log : ℕ → ℕ} (hlog : ∀ i, log i = 0) (hz : ∀ x, m x = 0) :
    CrashOk .growth [] ⟨m, 20, 1, log⟩ := by
  have happ := (initialLayout_ok 0).append (k := 20) (t := .stuck 20480) (by omega) rfl trivial
  refine crashOk_nil happ (show 20 ≤ maxNvmChunks by decide)
    (fun hno => absurd Layout.set_self (hno _ _)) (fun {p t} hp => ?_) hlog
    (slots_idle_of_zero fun _ _ x _ _ => hz x)
  rcases Layout.set_eq_some hp with ⟨rfl, rfl⟩ | ⟨-, hp⟩
  · have hzero : ∀ f : NvmField, field m 0 f = 0 := fun f => field_eq_zero fun x _ _ => hz x
    show Formed m 0 (.stuck 20480)
    refine ⟨?_, ?_, by simp, ?_, by simp⟩
    all_goals
      simp only [HdrOk, StuckHdr, Settled, Nat.reduceMul, hzero]
      decide
  · obtain ⟨c, hc, -⟩ := initialLayout_cases hp
    omega

/-! ## The loops of `nvm_initialize_empty` -/

/-- The `memset` that starts inside `n_pages` leaves the low byte of 1022. -/
theorem nPages_after_memset (m : Mem) (b l : ℕ) :
    field (fill (store m (b + nPagesF.off) nPagesF.width 1022) (b + 5) (l + 1)) b nPagesF = 254 := by
  show load (fill (store m (b + 4) 4 1022) (b + 5) (l + 1)) (b + 4) 4 = 254
  have htail : load (fill (store m (b + 4) 4 1022) (b + 5) (l + 1)) (b + 4 + 1) 3 = 0 := by
    refine load_eq_zero fun x hx hx' => ?_
    by_cases hlt : x < b + 5 + (l + 1)
    · exact fill_apply (by omega) hlt
    · obtain rfl | rfl : x = b + 6 ∨ x = b + 7 := by omega
      all_goals
        rw [fill_eqOff _ _ _ _ (Or.inr (by omega)), store, if_pos (by omega)]
        simp [Nat.add_sub_add_left]
  have hhead : fill (store m (b + 4) 4 1022) (b + 5) (l + 1) (b + 4) = 254 := by
    rw [fill_eqOff _ _ _ _ (Or.inl (by omega)), store, if_pos (by omega)]
    simp
  rw [load, htail, hhead]
  rfl

/-- Chunk `c` is marked as an arena chunk but has no block yet. -/
def Unformatted (m : Mem) (c : ℕ) : Prop :=
  field m (4194304 * c) stateF = usageArena + stateInitializing ∧
    (field m (4194304 * c + 4096) stateF = 0 ∨
      field m (4194304 * c + 4096) stateF = usageFree + stateInitializing) ∧
    field m (4194304 * c + 4096) nPagesF = 0

/-- The images of the setup of chunk `c`. -/
def SetupImage (w : World) (c : ℕ) (img : Nvm) : Prop :=
  ∃ m, img = { w.nvm with mem := m } ∧ EqOff w.nvm.mem m (4194304 * c) 8192 ∧
    (∀ x, 4194304 * c + 64 ≤ x → x < 4194304 * c + 4096 → m x = 0) ∧
    (Unformatted m c ∨ Formatted m c 1022 ∨ Formatted m c 254)

/-- The initial setup of chunk `i`, which is all zeros. -/
theorem initialChunkSetup_spec {w : World} {i : ℕ} (hi : i < 20)
    (hz : ∀ x, 4194304 * i ≤ x → x < 4194304 * i + 8192 → w.nvm.mem x = 0) :
    Spec (initialChunkSetup i) (SetupImage w i)
      (fun _ w' => ∃ m, w' = w.setMem m ∧ EqOff w.nvm.mem m (4194304 * i) 8192 ∧
        ChunkSetup m i (usageArena + stateInitializing) (usageFree + stateInitializing) 254 0)
      (fun _ => False) w := by
  have hc : ∀ k, k * chunkSize = 4194304 * k := fun k => Nat.mul_comm k 4194304
  unfold initialChunkSetup
  simp only [hc]
  change Spec _ _ _ _ (w.setMem w.nvm.mem)
  -- the chunk header
  refine spec_storeField_then fun m₁ hm₁ => ?_
  have heq₁ : EqOff w.nvm.mem m₁ (4194304 * i) 64 :=
    hm₁ ▸ (EqOff.refl _ _ _).store _ (by omega) (by simp only [stateF]; omega)
  have hst₁ : field m₁ (4194304 * i) stateF = usageArena + stateInitializing := by
    rw [hm₁, field_store_self]
    decide
  have hblock : ∀ {m : Mem}, EqOff w.nvm.mem m (4194304 * i) 64 → ∀ f : NvmField,
      f.off + f.width ≤ 64 → field m (4194304 * i + 4096) f = 0 := by
    intro m heq f hf
    refine field_eq_zero fun x hx hx' => ?_
    rw [heq x (Or.inr (by omega))]
    exact hz x (by omega) (by omega)
  have htables : ∀ {m : Mem}, EqOff w.nvm.mem m (4194304 * i) 64 →
      ∀ x, 4194304 * i + 64 ≤ x → x < 4194304 * i + 8192 → m x = 0 := by
    intro m heq x hx hx'
    rw [heq x (Or.inr hx)]
    exact hz x (by omega) hx'
  refine ⟨⟨m₁, rfl, heq₁.mono le_rfl (by omega), fun x hx hx' => htables heq₁ x hx (by omega),
    Or.inl ⟨hst₁, Or.inl (hblock heq₁ _ (by decide)), hblock heq₁ _ (by decide)⟩⟩, ?_⟩
  refine spec_storeField_then fun m₂ hm₂ => ?_
  have heq₂ : EqOff w.nvm.mem m₂ (4194304 * i) 64 :=
    hm₂ ▸ heq₁.store _ (by omega) (by simp only [nextOtChunkF]; omega)
  have hst₂ : field m₂ (4194304 * i) stateF = usageArena + stateInitializing := by
    rw [hm₂, field_store_of_ne (by decide), hst₁]
  have hun₂ : SetupImage w i { w.nvm with mem := m₂ } :=
    ⟨m₂, rfl, heq₂.mono le_rfl (by omega), fun x hx hx' => htables heq₂ x hx (by omega),
      Or.inl ⟨hst₂, Or.inl (hblock heq₂ _ (by decide)), hblock heq₂ _ (by decide)⟩⟩
  have hnext₂ : field m₂ (4194304 * i) nextOtChunkF =
      if i < 19 then 4194304 * (i + 1) else 0 := by
    rw [hm₂, field_store_self]
    refine Nat.mod_eq_of_lt ?_
    by_cases hlt : i < initialArenas - 1
    · rw [if_pos hlt]
      simp only [nextOtChunkF]
      omega
    · rw [if_neg hlt]
      decide
  have htable := htables heq₂
  refine ⟨hun₂, ?_⟩
  refine spec_memset0_noop (fun x hx hx' => htable x hx (by simp only [headerSize] at hx'; omega))
    hun₂ ?_
  refine spec_persistRange_then ?_
  -- the first block
  refine spec_storeField_then fun m₃ hm₃ => ?_
  have heq₃ : EqOff m₂ m₃ (4194304 * i + 4096) 64 :=
    hm₃ ▸ (EqOff.refl _ _ _).store _ (by simp only [blockSize]; omega)
      (by simp only [stateF, blockSize]; omega)
  have hoff : ∀ {m : Mem}, EqOff m₂ m (4194304 * i + 4096) 64 →
      EqOff w.nvm.mem m (4194304 * i) 8192 := fun h =>
    (heq₂.mono le_rfl (by omega)).trans (h.mono (by omega) (by omega))
  have hhdr : ∀ {m : Mem}, EqOff m₂ m (4194304 * i + 4096) 64 →
      EqOn m₂ m (4194304 * i) 64 := fun h => h.eqOn (Or.inl (by omega))
  have hb₃ : field m₃ (4194304 * i + 4096) stateF = usageFree + stateInitializing := by
    rw [hm₃]
    exact field_store_self
  have hfield₃ : ∀ f : NvmField, 1 ≤ f.off → f.off + f.width ≤ 64 →
      field m₃ (4194304 * i + 4096) f = 0 := by
    intro f hf hf'
    rw [hm₃, ← hblock heq₂ f hf']
    exact field_store_of_ne (Or.inr hf)
  refine ⟨⟨m₃, rfl, hoff heq₃, fun x hx hx' => ?_,
    Or.inl ⟨?_, Or.inr hb₃, hfield₃ _ (by decide) (by decide)⟩⟩, ?_⟩
  · rw [heq₃ x (Or.inl (by omega)), htable x hx (by omega)]
  · rw [field_eqOn (hhdr heq₃) (by decide), hst₂]
  -- what remains writes the header of the block behind its state byte
  have hsetup : ∀ {m : Mem} {n : ℕ}, EqOff m₃ m (4194304 * i + 4096 + 4) 60 →
      field m (4194304 * i + 4096) nPagesF = n → field m (4194304 * i + 4096) blockArenaIdF = 0 →
      EqOff w.nvm.mem m (4194304 * i) 8192 ∧
        ChunkSetup m i (usageArena + stateInitializing) (usageFree + stateInitializing) n 0 := by
    intro m n heq hn ha
    have heq' : EqOff m₂ m (4194304 * i + 4096) 64 := heq₃.trans (heq.mono (by omega) (by omega))
    refine ⟨hoff heq', ⟨?_, ?_, fun x hx hx' => ?_, ?_, hn, ha⟩⟩
    · rw [field_eqOn (hhdr heq') (by decide), hst₂]
    · rw [field_eqOn (hhdr heq') (by decide), hnext₂]
    · rw [heq' x (Or.inl hx'), htable x hx (by omega)]
    · rw [← hb₃]
      exact field_congr (heq.eqOn (Or.inl (by simp only [stateF]; omega)))
  have hformatted : ∀ {m : Mem} {n : ℕ}, ChunkSetup m i (usageArena + stateInitializing)
      (usageFree + stateInitializing) n 0 → Formatted m i n := fun h =>
    ⟨_, _, 0, Or.inl rfl, Or.inl rfl, by decide, h⟩
  refine spec_storeField_then fun m₄ hm₄ => ?_
  have heq₄ : EqOff m₃ m₄ (4194304 * i + 4096 + 4) 60 :=
    hm₄ ▸ (EqOff.refl _ _ _).store _ (by simp only [nPagesF, blockSize]; omega)
      (by simp only [nPagesF, blockSize]; omega)
  have ha₄ : field m₄ (4194304 * i + 4096) blockArenaIdF = 0 := by
    rw [hm₄, ← hfield₃ blockArenaIdF (by decide) (by decide)]
    exact field_store_of_ne (by decide)
  have hn₄ : field m₄ (4194304 * i + 4096) nPagesF = 1022 := by
    rw [hm₄]
    exact field_store_self
  obtain ⟨hoff₄, hset₄⟩ := hsetup heq₄ hn₄ ha₄
  refine ⟨⟨m₄, rfl, hoff₄, hset₄.table, Or.inr (Or.inl (hformatted hset₄))⟩, ?_⟩
  have hmemset : ∀ l, l < 59 → EqOff w.nvm.mem (fill m₄ (4194304 * i + 4096 + 5) (l + 1))
      (4194304 * i) 8192 ∧ ChunkSetup (fill m₄ (4194304 * i + 4096 + 5) (l + 1)) i
        (usageArena + stateInitializing) (usageFree + stateInitializing) 254 0 := by
    intro l hl
    refine hsetup (heq₄.fill (by omega) (by omega)) ?_ ?_
    · rw [hm₄]
      exact nPages_after_memset ..
    · refine field_eq_zero fun x hx hx' => ?_
      have hz₄ := eq_zero_of_load ha₄ x hx hx'
      unfold fill
      rw [hz₄, ite_self]
  refine spec_memset0_then (fun l hl => ?_) fun m₅ hm₅ => ?_
  · exact ⟨_, rfl, (hmemset l hl).1, (hmemset l hl).2.table,
      Or.inr (Or.inr (hformatted (hmemset l hl).2))⟩
  · rw [spec_persist]
    obtain ⟨hoff₅, hset₅⟩ := hmemset 58 (by omega)
    exact ⟨m₅, rfl, hm₅ ▸ hoff₅, hm₅ ▸ hset₅⟩

section

variable {w : World} (hnvm : ∃ log : ℕ → ℕ, (∀ i, log i = 0) ∧ w.nvm = ⟨fun _ => 0, 20, 1, log⟩)

include hnvm

/-- A crash while chunk 0 has a block that is too small. -/
theorem crashOk_setup {m : Mem} {n : ℕ} (hn : n = 1022 ∨ n = 254) (h0 : Formatted m 0 n)
    (hblank : Blank m) : CrashOk .growth [] { w.nvm with mem := m } := by
  obtain ⟨log, hlog, hw⟩ := hnvm
  rw [hw]
  exact crashOk_formatted (by omega) (by omega) (by omega) hlog (by omega) h0 hblank

/-- The loop that sets up the chunks. -/
theorem setupLoop_spec :
    Spec (forRange initialChunkSetup 0 initialArenas) (CrashOk .growth [])
      (fun _ w' => ∃ m, w' = w.setMem m ∧ Blank m ∧ ∀ c < 20,
        ChunkSetup m c (usageArena + stateInitializing) (usageFree + stateInitializing) 254 0)
      (fun _ => False) w := by
  let I : ℕ → World → Prop := fun k w' => ∃ m, w' = w.setMem m ∧ Blank m ∧
    (∀ c < k, ChunkSetup m c (usageArena + stateInitializing) (usageFree + stateInitializing) 254 0) ∧
    ∀ x, 4194304 * k ≤ x → m x = 0
  have hstart : I 0 w := by
    obtain ⟨log, -, hw⟩ := hnvm
    refine ⟨w.nvm.mem, rfl, ⟨fun x _ => ?_, fun _ _ x _ _ => ?_⟩,
      fun c hc => by omega, fun x _ => ?_⟩ <;>
      rw [hw]
  refine (spec_forRange I hstart ?_).imp ?_
  · rintro k _ - hk ⟨m, rfl, hblank, hdone, hz⟩
    have hk' : k < 20 := by simpa [initialArenas] using hk
    refine (initialChunkSetup_spec hk' fun x hx _ => hz x hx).mono ?_ ?_ fun _ h => h
    · rintro _ ⟨m', rfl, heq, htable, hstage⟩
      change EqOff m m' _ _ at heq
      have hblank' := hblank.congr hk' heq htable
      change CrashOk .growth [] { w.nvm with mem := m' }
      by_cases hk0 : k = 0
      · subst hk0
        rcases hstage with hun | hfmt | hfmt
        · obtain ⟨log, hlog, hw⟩ := hnvm
          rw [hw]
          exact crashOk_unformatted hlog hun.1 hun.2.1 hun.2.2 hblank'
        · exact crashOk_setup hnvm (Or.inl rfl) hfmt hblank'
        · exact crashOk_setup hnvm (Or.inr rfl) hfmt hblank'
      · have hset := (hdone 0 (by omega)).congr (heq.eqOn (Or.inl (by omega)))
        exact crashOk_setup hnvm (Or.inr rfl) ⟨_, _, 0, Or.inl rfl, Or.inl rfl, by decide, hset⟩
          hblank'
    · rintro _ _ ⟨m', rfl, heq, hset⟩
      change EqOff m m' _ _ at heq
      refine ⟨m', rfl, hblank.congr hk' heq hset.table, fun c hc => ?_, fun x hx => ?_⟩
      · by_cases hck : c = k
        · subst hck
          exact hset
        · exact (hdone c (by omega)).congr (heq.eqOn (Or.inl (by omega)))
      · rw [heq x (Or.inr (by omega)), hz x (by omega)]
  · rintro _ _ ⟨m, rfl, hblank, hdone, -⟩
    exact ⟨m, rfl, hblank, fun c hc => hdone c (by simpa [initialArenas] using hc)⟩

omit hnvm in
/-- A chunk is marked as initialized. -/
theorem ChunkSetup.setState {m : Mem} {c st blockSt nPages arena v : ℕ}
    (h : ChunkSetup m c st blockSt nPages arena) (hv : v < 256) :
    ChunkSetup (store m (4194304 * c + stateF.off) stateF.width v) c v blockSt nPages arena := by
  have hoff : EqOff m (store m (4194304 * c + stateF.off) stateF.width v) (4194304 * c) 1 :=
    (EqOff.refl _ _ _).store _ (by omega) (by simp only [stateF]; omega)
  have hblock := hoff.eqOn (b := 4194304 * c + 4096) (k := 64) (Or.inr (by omega))
  refine ⟨?_, ?_, fun x hx hx' => ?_, ?_, ?_, ?_⟩
  · rw [field_store_self]
    exact Nat.mod_eq_of_lt hv
  · rw [field_store_of_ne (by decide), h.nextOt]
  · rw [hoff x (Or.inr (by omega)), h.table x hx hx']
  · rw [field_eqOn hblock (by decide), h.blockState]
  · rw [field_eqOn hblock (by decide), h.pages]
  · rw [field_eqOn hblock (by decide), h.arenaId]

/-- The loop that marks the chunks as initialized. -/
theorem markLoop_spec {m₀ : Mem} (hblank : Blank m₀) (hsetup : ∀ c < 20,
    ChunkSetup m₀ c (usageArena + stateInitializing) (usageFree + stateInitializing) 254 0) :
    Spec (forRange (fun i => do
        storeField (i * chunkSize) stateF (stateInitialized + usageArena)
        persist (i * chunkSize)) 0 initialArenas) (CrashOk .growth [])
      (fun _ w' => ∃ m, w' = w.setMem m ∧ Blank m ∧ ∀ c < 20,
        ChunkSetup m c (usageArena + stateInitialized) (usageFree + stateInitializing) 254 0)
      (fun _ => False) (w.setMem m₀) := by
  let I : ℕ → World → Prop := fun k w' => ∃ m, w' = w.setMem m ∧ Blank m ∧ ∀ c < 20,
    ChunkSetup m c (if c < k then usageArena + stateInitialized else usageArena + stateInitializing)
      (usageFree + stateInitializing) 254 0
  refine (spec_forRange I ⟨m₀, rfl, hblank, fun c hc => by simpa using hsetup c hc⟩ ?_).imp ?_
  · rintro k _ - hk ⟨m, rfl, hblank, hset⟩
    have hk' : k < 20 := by simpa [initialArenas] using hk
    rw [Nat.mul_comm k chunkSize]
    refine spec_storeField_then fun m' hm' => ?_
    have heq : EqOff m m' (4194304 * k) 1 :=
      hm' ▸ (EqOff.refl _ _ _).store _ (by simp only [chunkSize]; omega)
        (by simp only [stateF, chunkSize]; omega)
    have hset' : ∀ c < 20, ChunkSetup m' c
        (if c < k + 1 then usageArena + stateInitialized else usageArena + stateInitializing)
        (usageFree + stateInitializing) 254 0 := by
      intro c hc
      by_cases hck : c = k
      · subst hck
        rw [if_pos (Nat.lt_succ_self c), hm']
        exact (hset c hc).setState (by decide)
      · have hiff : c < k + 1 ↔ c < k := by omega
        simp only [hiff]
        exact (hset c hc).congr (heq.eqOn (by omega))
    have hblank' := hblank.congr hk' (heq.mono le_rfl (by omega)) (hset' k hk').table
    refine ⟨?_, ?_⟩
    · refine crashOk_setup hnvm (Or.inr rfl) ⟨_, _, 0, ?_, Or.inl rfl, by decide, hset' 0 (by omega)⟩
        hblank'
      exact Or.inr (if_pos (Nat.succ_pos k))
    · rw [spec_persist]
      exact ⟨m', rfl, hblank', hset'⟩
  · rintro _ _ ⟨m, rfl, hblank, hset⟩
    refine ⟨m, rfl, hblank, fun c hc => ?_⟩
    have := hset c hc
    rwa [if_pos (by simpa [initialArenas] using hc)] at this

/-- Arena `a` of a fresh heap: empty bins and one page run. -/
def initialArena (a : ℕ) : Arena :=
  ⟨fun _ => ⟨none, 0, 0, none⟩, .node .nil ⟨4194304 * a + 4096, 1023, a⟩ .nil⟩

omit hnvm in
/-- The header of the first block changes. -/
theorem ChunkSetup.setBlock {m m' : Mem} {c st blockSt nPages arena b n a : ℕ}
    (h : ChunkSetup m c st blockSt nPages arena) (heq : EqOff m m' (4194304 * c + 4096) 64)
    (hb : field m' (4194304 * c + 4096) stateF = b) (hn : field m' (4194304 * c + 4096) nPagesF = n)
    (ha : field m' (4194304 * c + 4096) blockArenaIdF = a) : ChunkSetup m' c st b n a := by
  have hhdr := heq.eqOn (b := 4194304 * c) (k := 4096) (Or.inl (by omega))
  refine ⟨?_, ?_, fun x hx hx' => ?_, hb, hn, ha⟩
  · rw [field_eqOn (hhdr.mono le_rfl (by omega)) (by decide), h.state]
  · rw [field_eqOn (hhdr.mono le_rfl (by omega)) (by decide), h.nextOt]
  · rw [hhdr x (by omega) hx', h.table x hx hx']

/-- `arena_init` creates arena `k` on a chunk whose block is too small. -/
theorem arenaInit_spec {m : Mem} {k : ℕ} (hk : k < 20) (hblank : Blank m)
    (hdone : ∀ c < k, ChunkSetup m c (usageArena + stateInitialized) (usageFree + stateInitialized)
      1023 c)
    (hrest : ∀ c < 20, k ≤ c →
      ChunkSetup m c (usageArena + stateInitialized) (usageFree + stateInitializing) 254 0)
    {A : ℕ → Arena} :
    Spec (arenaInit k (some (k * chunkSize))) (CrashOk .growth [])
      (fun _ w' => ∃ m', w' = { w.setMem m' with arenas := Function.update A k (initialArena k) } ∧
        EqOff m m' (4194304 * k) 8192 ∧
        ChunkSetup m' k (usageArena + stateInitialized) (usageFree + stateInitialized) 1023 k)
      (fun _ => False) { w.setMem m with arenas := A } := by
  have hc : k * chunkSize = 4194304 * k := Nat.mul_comm k 4194304
  set w₁ : World := { w with arenas := Function.update A k (initialArena k) } with hw₁
  have hworld : ∀ W : World, W = { w.setMem m with arenas := A }.setArena k
      ⟨fun _ => ⟨none, 0, 0, none⟩, .nil⟩ → W.setTree k ((W.arenas k).freePageruns.treeAdd
        ArenaBlock.nPages ⟨4194304 * k + 4096, 1023, k⟩) = w₁.setMem m := by
    rintro W rfl
    simp only [World.setTree, World.setArena, World.setMem, Function.update_self,
      Function.update_idem, hw₁]
    rfl
  unfold arenaInit addFreePagerun
  simp only [hc]
  rw [spec_bind, spec_modify, spec_bind, spec_modify]
  change Spec _ _ _ _ (World.setTree _ k (SearchTree.treeAdd _ ⟨4194304 * k + 4096, 1023, k⟩ _))
  rw [hworld _ rfl]
  have h₀ := hrest k hk le_rfl
  -- a crash while chunk `k` is too small
  have hsmall : ∀ {m'}, EqOff m m' (4194304 * k + 4096) 64 → Formatted m' k 254 →
      CrashOk .growth [] { w₁.nvm with mem := m' } := by
    intro m' heq hfmt
    have heq' : EqOff m m' (4194304 * k) 8192 := heq.mono (by omega) (by omega)
    obtain ⟨log, hlog, hw⟩ := hnvm
    change CrashOk .growth [] { w.nvm with mem := m' }
    rw [hw]
    refine crashOk_formatted hk (by omega) (by omega) hlog (fun c hc => ?_) hfmt
      (hblank.congr hk heq' hfmt.table)
    exact ⟨_, _, c, Or.inr rfl, Or.inr rfl, by simp only [initialArenas]; omega,
      (hdone c hc).congr (heq'.eqOn (Or.inl (by omega)))⟩
  -- a crash after it has all its pages
  have hlarge : ∀ {m'}, EqOff m m' (4194304 * k + 4096) 64 → Formatted m' k 1023 →
      CrashOk .growth [] { w₁.nvm with mem := m' } := by
    intro m' heq hfmt
    have heq' : EqOff m m' (4194304 * k) 8192 := heq.mono (by omega) (by omega)
    have hgood : ∀ c < k + 1, Formatted m' c 1023 := by
      intro c hc
      by_cases hck : c = k
      · exact hck ▸ hfmt
      · exact ⟨_, _, c, Or.inr rfl, Or.inr rfl, by simp only [initialArenas]; omega,
          (hdone c (by omega)).congr (heq'.eqOn (Or.inl (by omega)))⟩
    obtain ⟨log, hlog, hw⟩ := hnvm
    change CrashOk .growth [] { w.nvm with mem := m' }
    rw [hw]
    by_cases hlast : k + 1 < 20
    · refine crashOk_formatted (n := 254) hlast (by omega) (by omega) hlog hgood ?_
        (hblank.congr hk heq' hfmt.table)
      exact ⟨_, _, 0, Or.inr rfl, Or.inl rfl, by decide,
        (hrest (k + 1) hlast (Nat.le_succ k)).congr (heq'.eqOn (Or.inr (by omega)))⟩
    · exact crashOk_allFormatted hlog fun c hc => hgood c (by omega)
  refine spec_storeField_then fun m₁ hm₁ => ?_
  have heq₁ : EqOff m m₁ (4194304 * k + 4096) 64 :=
    hm₁ ▸ (EqOff.refl _ _ _).store _ (by simp only [blockSize]; omega)
      (by simp only [stateF, blockSize]; omega)
  have hset₁ : ChunkSetup m₁ k (usageArena + stateInitialized) (usageFree + stateInitialized) 254 0 := by
    refine h₀.setBlock heq₁ ?_ ?_ ?_ <;> rw [hm₁]
    · exact field_store_self
    · exact (field_store_of_ne (by decide)).trans h₀.pages
    · exact (field_store_of_ne (by decide)).trans h₀.arenaId
  refine ⟨hsmall heq₁ ⟨_, _, 0, Or.inr rfl, Or.inr rfl, by decide, hset₁⟩, ?_⟩
  refine spec_storeField_then fun m₂ hm₂ => ?_
  have heq₂ : EqOff m m₂ (4194304 * k + 4096) 64 :=
    hm₂ ▸ heq₁.store _ (by simp only [blockSize]; omega) (by simp only [nPagesF, blockSize]; omega)
  have hset₂ : ChunkSetup m₂ k (usageArena + stateInitialized) (usageFree + stateInitialized) 1023
      0 := by
    refine h₀.setBlock heq₂ ?_ ?_ ?_ <;> rw [hm₂]
    · exact (field_store_of_ne (by decide)).trans hset₁.blockState
    · exact field_store_self
    · exact (field_store_of_ne (by decide)).trans hset₁.arenaId
  refine ⟨hlarge heq₂ ⟨_, _, 0, Or.inr rfl, Or.inr rfl, by decide, hset₂⟩, ?_⟩
  refine spec_storeField_then fun m₃ hm₃ => ?_
  have heq₃ : EqOff m m₃ (4194304 * k + 4096) 64 :=
    hm₃ ▸ heq₂.store _ (by simp only [blockSize]; omega) (by simp only [blockArenaIdF, blockSize]; omega)
  have hset₃ : ChunkSetup m₃ k (usageArena + stateInitialized) (usageFree + stateInitialized) 1023
      k := by
    refine h₀.setBlock heq₃ ?_ ?_ ?_ <;> rw [hm₃]
    · exact (field_store_of_ne (by decide)).trans hset₂.blockState
    · exact (field_store_of_ne (by decide)).trans hset₂.pages
    · refine field_store_self.trans (Nat.mod_eq_of_lt ?_)
      simp only [blockArenaIdF]
      omega
  refine ⟨hlarge heq₃ ⟨_, _, k, Or.inr rfl, Or.inr rfl, hk, hset₃⟩, ?_⟩
  rw [spec_persist]
  exact ⟨m₃, rfl, heq₃.mono (by omega) (by omega), hset₃⟩

/-- The loop that creates the arenas. -/
theorem arenaLoop_spec {m₀ : Mem} (hblank : Blank m₀) (hsetup : ∀ c < 20,
    ChunkSetup m₀ c (usageArena + stateInitialized) (usageFree + stateInitializing) 254 0) :
    Spec (forRange (fun i => arenaInit i (some (i * chunkSize))) 0 initialArenas) (CrashOk .growth [])
      (fun _ w' => ∃ m, w' = { w.setMem m with
          arenas := fun a => if a < 20 then initialArena a else w.arenas a } ∧ Blank m ∧
        ∀ c < 20, ChunkSetup m c (usageArena + stateInitialized) (usageFree + stateInitialized) 1023 c)
      (fun _ => False) (w.setMem m₀) := by
  let I : ℕ → World → Prop := fun k w' => ∃ m, w' = { w.setMem m with
      arenas := fun a => if a < k then initialArena a else w.arenas a } ∧ Blank m ∧
    (∀ c < k, ChunkSetup m c (usageArena + stateInitialized) (usageFree + stateInitialized) 1023 c) ∧
    ∀ c < 20, k ≤ c →
      ChunkSetup m c (usageArena + stateInitialized) (usageFree + stateInitializing) 254 0
  refine (spec_forRange I ⟨m₀, rfl, hblank, fun c hc => by omega, fun c hc _ => hsetup c hc⟩ ?_).imp ?_
  · rintro k _ - hk ⟨m, rfl, hblank, hdone, hrest⟩
    have hk' : k < 20 := by simpa [initialArenas] using hk
    refine (arenaInit_spec hnvm hk' hblank hdone hrest).imp ?_
    rintro _ _ ⟨m', rfl, heq, hset⟩
    refine ⟨m', ?_, hblank.congr hk' heq hset.table, fun c hc => ?_, fun c hc hkc => ?_⟩
    · have harenas : Function.update (fun a => if a < k then initialArena a else w.arenas a) k
          (initialArena k) = fun a => if a < k + 1 then initialArena a else w.arenas a := by
        funext a
        by_cases hak : a = k
        · subst hak
          rw [Function.update_self, if_pos (Nat.lt_succ_self a)]
        · have hiff : a < k + 1 ↔ a < k := by omega
          rw [Function.update_of_ne hak]
          simp only [hiff]
      rw [harenas]
    · by_cases hck : c = k
      · exact hck ▸ hset
      · exact (hdone c (by omega)).congr (heq.eqOn (Or.inl (by omega)))
    · exact (hrest c hc (by omega)).congr (heq.eqOn (Or.inr (by omega)))
  · rintro _ _ ⟨m, rfl, hblank, hdone, -⟩
    exact ⟨m, rfl, hblank, fun c hc => hdone c (by simpa [initialArenas] using hc)⟩

end

/-! ## `nvm_initialize_empty` -/

/-- A crash before the heap has chunks. -/
theorem crashOk_noChunks {img : Nvm} (hchunks : img.nextChunk = 0) (hlog : ∀ i, img.log i = 0)
    (hz : ∀ x, img.mem x = 0) : CrashOk .growth [] img := by
  refine crashOk_nil (L := initialLayout 0) (hchunks ▸ initialLayout_ok 0)
    (hchunks ▸ Nat.zero_le _) (fun _ c _ hc => by omega) (fun hp => ?_) hlog
    (slots_idle_of_zero fun _ _ x _ _ => hz x)
  obtain ⟨c, hc, -⟩ := initialLayout_cases hp
  omega

/-- An empty bin. -/
theorem binInv_empty (nBytes : ℕ) (H : ℕ → ArenaRun) : BinInv nBytes H ⟨none, 0, 0, none⟩ [] :=
  ⟨List.nodup_nil, List.nodup_nil, by simp, by simp, by simp, rfl, by simp, [], rfl, by simp⟩

/-- The header page of every initial chunk: an empty object table and the link to the next one. -/
def EmptyTables (m : Mem) : Prop :=
  ∀ c < 20, field m (4194304 * c) nextOtChunkF = (if c < 19 then 4194304 * (c + 1) else 0) ∧
    ∀ x, 4194304 * c + 64 ≤ x → x < 4194304 * c + 4096 → m x = 0

/-- What `nvm_initialize_empty` leaves: all pages in the pools, nothing outstanding. -/
theorem procInv_initial {w : World} {m : Mem} (log : ℕ → ℕ) (hlog : ∀ i, log i = 0)
    (hnvm : w.nvm = ⟨m, 20, 1, log⟩) (hblank : Blank m)
    (hset : ∀ c < 20,
      ChunkSetup m c (usageArena + stateInitialized) (usageFree + stateInitialized) 1023 c)
    (harenas : w.arenas = fun a => if a < 20 then initialArena a else
      ⟨fun _ => ⟨none, 0, 0, none⟩, .nil⟩)
    (hfree : w.freeChunks = .nil) (hn : w.nVheaders = 0) (hversion : w.currentVersion = 0) :
    ProcInv (initialLayout 20) w [] := by
  have hnoRun : ∀ {p k}, initialLayout 20 p ≠ some (.run k) := by
    intro p k hp
    obtain ⟨c, -, ⟨-, ht⟩ | ⟨-, ht⟩⟩ := initialLayout_cases hp <;> simp at ht
  have hnoHuge : ∀ {p n o}, initialLayout 20 p ≠ some (.huge n o) := by
    intro p n o hp
    obtain ⟨c, -, ⟨-, ht⟩ | ⟨-, ht⟩⟩ := initialLayout_cases hp <;> simp at ht
  have hB : ∀ c, 4096 * (1024 * c) = 4194304 * c := fun c => by omega
  have hB1 : ∀ c, 4096 * (1024 * c + 1) = 4194304 * c + 4096 := fun c => by omega
  refine ⟨⟨?_, ⟨fun a => ?_, ?_⟩, ⟨fun hp => absurd hp hnoRun, fun k hk => ?_⟩, ?_⟩,
    fun p t hp => ?_, fun ab => ?_, hversion⟩
  · rw [hnvm]
    refine ⟨initialLayout_ok 20, show 20 ≤ maxNvmChunks by decide, fun c hc => ?_,
      fun {p t} hp => ?_, fun x hx => ?_,
      fun i _ hne => absurd (hlog i) hne, fun hp => absurd hp hnoHuge, rfl, fun hp => absurd hp hnoRun,
      fun s hs hst => absurd hst
      (slots_idle_of_zero (fun c hc x hx hx' => (hset c hc).table x hx hx') s hs)⟩
    · simp only [initialArenas] at hc
      rw [initialLayout, if_pos (by omega), if_pos (by omega)]
    · obtain ⟨c, hc, ⟨rfl, rfl⟩ | ⟨rfl, rfl⟩⟩ := initialLayout_cases hp
      · simp only [Quiet, hB]
        exact (hset c hc).state
      · simp only [Quiet, hB1]
        refine ⟨(hset c hc).pages, ?_, (hset c hc).blockState, by simp⟩
        rw [(hset c hc).arenaId]
        exact hc
    · exact hblank.pages x (Or.inr (by simpa using hx))
  · -- the tree of an arena holds the block of its chunk
    simp only [harenas]
    by_cases ha : a < 20
    · rw [if_pos ha]
      refine ⟨List.nodup_singleton _, fun x => ?_⟩
      show x ∈ [_] ↔ _
      rw [List.mem_singleton]
      constructor
      · rintro rfl
        refine ⟨1024 * a + 1, ?_, (hB1 a).symm, rfl⟩
        rw [initialLayout, if_pos (by omega), if_neg (by omega), if_pos (by omega)]
        simp only [Option.some.injEq, Tile.block.injEq, Owner.pool.injEq, true_and]
        omega
      · rintro ⟨p, hp, haddr, harena⟩
        obtain ⟨c, -, ⟨-, ht⟩ | ⟨rfl, ht⟩⟩ := initialLayout_cases hp
        · exact absurd ht (by simp)
        · simp only [Tile.block.injEq, Owner.pool.injEq] at ht
          obtain ⟨hpages, rfl⟩ := ht
          obtain ⟨addr, nPages, arena⟩ := x
          simp only at haddr harena hpages
          subst haddr harena hpages
          rw [hB1]
    · rw [if_neg ha]
      refine ⟨List.nodup_nil, fun x => ⟨fun hx => absurd hx (by simp), ?_⟩⟩
      rintro ⟨p, hp, -⟩
      obtain ⟨c, hc, ⟨-, ht⟩ | ⟨-, ht⟩⟩ := initialLayout_cases hp
      · exact absurd ht (by simp)
      · simp only [Tile.block.injEq, Owner.pool.injEq] at ht
        omega
  · rw [hfree]
    refine ⟨List.nodup_nil, fun x => ⟨fun hx => absurd hx (by simp), ?_⟩⟩
    rintro ⟨p, hp, -⟩
    exact absurd hp hnoHuge
  · omega
  · refine ⟨List.nodup_nil, by simp, by simp, fun hp => ?_, fun hp => absurd hp hnoHuge,
      fun hp => absurd hp hnoRun, fun hp => absurd hp hnoRun⟩
    obtain ⟨c, -, ⟨-, ht⟩ | ⟨-, ht⟩⟩ := initialLayout_cases hp <;> simp at ht
  · obtain ⟨c, hc, ⟨-, rfl⟩ | ⟨-, rfl⟩⟩ := initialLayout_cases hp
    · trivial
    · exact hc
  · refine ⟨[], ?_, fun k => by simp [hn]⟩
    have hbin : w.bin ab = ⟨none, 0, 0, none⟩ := by
      simp only [World.bin, harenas]
      split <;> rfl
    rw [hbin]
    exact binInv_empty _ _

/-- Every initial chunk belongs to the arena of its number. -/
theorem arenaInv_initial {m : Mem} {st blockSt nPages : ℕ}
    (hset : ∀ c < 20, ChunkSetup m c st blockSt nPages c) : ArenaInv (initialLayout 20) m := by
  intro p t hp
  obtain ⟨c, hc, ⟨rfl, rfl⟩ | ⟨rfl, rfl⟩⟩ := initialLayout_cases hp
  · trivial
  · have hchunk : chunkArena ((1024 * c + 1) / 1024) = c := by
      rw [show (1024 * c + 1) / 1024 = c by omega, chunkArena,
        if_pos (show c < initialArenas from hc)]
    refine ⟨?_, fun a ha => ?_⟩
    · rw [hchunk, show 4096 * (1024 * c + 1) = 4194304 * c + 4096 by omega, (hset c hc).arenaId]
    · rw [hchunk, Owner.pool.inj ha]

/-- `nvm_initialize_empty`, in a new process. -/
theorem nvmInitializeEmpty_spec {w : World} (harenas : w.arenas = fun _ =>
      ⟨fun _ => ⟨none, 0, 0, none⟩, .nil⟩) (hfree : w.freeChunks = .nil) (hn : w.nVheaders = 0) :
    Spec nvmInitializeEmpty (CrashOk .growth [])
      (fun _ w' => ProcInv (initialLayout 20) w' [] ∧ EmptyTables w'.nvm.mem ∧
        w'.nvmStart = w.nvmStart ∧ w'.ot = w.ot ∧ ArenaInv (initialLayout 20) w'.nvm.mem)
      (fun _ => False) w := by
  unfold nvmInitializeEmpty initializeChunks storeVersion
  rw [spec_bind, spec_commitMeta]
  refine ⟨crashOk_noChunks rfl (fun _ => rfl) fun _ => rfl, ?_⟩
  rw [spec_bind, spec_commitMeta]
  refine ⟨crashOk_noChunks rfl (fun _ => rfl) fun _ => rfl, ?_⟩
  rw [spec_bind, spec_persistMeta, spec_bind, spec_modify]
  have hnvm : ∃ log : ℕ → ℕ, (∀ i, log i = 0) ∧
      (⟨emptyNvm.mem, 20, 1, emptyNvm.log⟩ : Nvm) = ⟨fun _ => 0, 20, 1, log⟩ :=
    ⟨emptyNvm.log, fun _ => rfl, rfl⟩
  set w₁ : World := { w with nvm := ⟨emptyNvm.mem, 20, 1, emptyNvm.log⟩, currentVersion := 0 }
  refine Spec.bind (Q := fun _ w' => w' = w₁) ?_ ?_
  · unfold activateMoreChunks
    rw [spec_bind, spec_get, spec_ite]
    refine ⟨fun h => absurd (show 0 + 20 > maxNvmChunks from h) (by decide), fun _ => ?_⟩
    rw [spec_bind, spec_commitMeta, spec_pure]
    exact ⟨crashOk_unwritten (fun _ => rfl) fun _ => rfl, rfl⟩
  rintro _ _ rfl
  refine (setupLoop_spec (w := w₁) hnvm).bind ?_
  rintro _ _ ⟨m, rfl, hblank, hset⟩
  refine (markLoop_spec hnvm hblank hset).bind ?_
  rintro _ _ ⟨m, rfl, hblank, hset⟩
  refine (arenaLoop_spec hnvm hblank hset).imp ?_
  rintro _ _ ⟨m, rfl, hblank, hset⟩
  refine ⟨procInv_initial emptyNvm.log (fun _ => rfl) rfl hblank hset ?_ hfree hn rfl, ?_, rfl,
    rfl, arenaInv_initial hset⟩
  · show (fun a => if a < 20 then initialArena a else w.arenas a) = _
    rw [harenas]
  · exact fun c hc => ⟨(hset c hc).nextOt, (hset c hc).table⟩

end NvmMalloc
