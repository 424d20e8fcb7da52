import NvmMalloc.BackgroundScan
import NvmMalloc.GrowSpec
import NvmMalloc.Regions

/-!
# What the calls do while the recovery thread runs

Reference: `src/nvm_malloc.c` (`nvm_reserve`, `nvm_activate`, `nvm_free`), `src/arena.c`.

`PageInv` says that headers, trees and account agree with a layout.  While the recovery thread runs there
are tiles that nobody owns: the free page runs that it has not met yet.  A call changes one tile, adds
others, and leaves the tiles that nobody owns alone (`Keeps`).
-/

namespace NvmMalloc

/-! ## Agreement with a layout -/

/-- The usage bits of a block header. -/
def blockUsage : Owner → ℕ
  | .user true => usageBlock
  | _ => usageFree

/-- The header of a tile, as the recovery thread sees it.  A header at which it makes no progress has no
length; a page run that was about to become a run may have lost its usage bits. -/
def HeaderFor (h : PageHeader) (p : ℕ) : Tile → Prop
  | .arena => h.usage = usageArena
  | .huge n _ => h.usage ≠ usageArena ∧ h.count = n
  | .block n o => h.usage = blockUsage o ∧ h.count = n
  | .run _ => h.usage = usageRun ∧ h.count = 0
  | .stuck n =>
    if p % 1024 = 0 then h.usage ≠ usageArena ∧ h.count = 0
    else h.usage ≠ usageRun ∧
      (h.count = 0 ∨ h.usage ≠ usageFree ∧ h.count = n ∧ p % 1024 + n ≤ 1024)

theorem HeaderFor.stuck_chunk {h : PageHeader} {p n : ℕ} (hh : HeaderFor h p (.stuck n))
    (hp : p % 1024 = 0) : h.usage ≠ usageArena ∧ h.count = 0 := by
  simp only [HeaderFor] at hh
  rwa [if_pos hp] at hh

theorem HeaderFor.stuck_page {h : PageHeader} {p n : ℕ} (hh : HeaderFor h p (.stuck n))
    (hp : p % 1024 ≠ 0) : h.usage ≠ usageRun ∧
      (h.count = 0 ∨ h.usage ≠ usageFree ∧ h.count = n ∧ p % 1024 + n ≤ 1024) := by
  simp only [HeaderFor] at hh
  rwa [if_neg hp] at hh

/-- How the client uses a tile. -/
def Tile.use : Tile → Option PageUse
  | .huge n (.user active) => some ⟨1024 * n, if active then .activated else .reserved⟩
  | .block n (.user active) => some ⟨n, if active then .activated else .reserved⟩
  | .run _ => some ⟨1, .slots⟩
  | _ => none

/-- What the client uses is in no pool. -/
theorem Tile.use_eq_some {t : Tile} {x : PageUse} (h : t.use = some x) :
    t.len = x.nPages ∧ ∀ n a, t ≠ .block n (.pool a) := by
  cases t with
  | huge n o =>
    cases o with
    | user active =>
      obtain rfl := Option.some.inj h
      exact ⟨rfl, by simp⟩
    | _ => cases h
  | block n o =>
    cases o with
    | user active =>
      obtain rfl := Option.some.inj h
      exact ⟨rfl, by simp⟩
    | _ => cases h
  | run k =>
    obtain rfl := Option.some.inj h
    exact ⟨rfl, by simp⟩
  | _ => cases h

/-- The tile is in none of the free trees. -/
def Tile.Unpooled (t : Tile) : Prop := ∀ n a, t ≠ .block n (.pool a) ∧ t ≠ .huge n (.pool a)

/-- Headers, trees and account agree with the layout.  The tiles that nobody owns are those that the
recovery thread has not met yet. -/
structure PageInv (L : Layout) (s : ScanSys) : Prop where
  ok : L.Ok s.nextChunk
  le : s.nextChunk ≤ maxNvmChunks
  header : ∀ {p t}, L p = some t → HeaderFor (s.header p) p t
  pages : ∀ a, (s.trees a).Holds (PoolRun L a)
  chunks : s.freeChunks.Holds (PoolChunks L)
  used : ∀ p, s.used p = (L p).bind Tile.use
  arenas : ∀ {p n a}, L p = some (.block n (.pool a)) → a < initialArenas

/-- The state in which `nvm_initialize` returns: the recovery thread has not begun.  The log loop
may have put page runs and chunks into the trees. -/
structure ScanSys.Init (s : ScanSys) : Prop where
  pc : s.pc = .chunk 0
  nChunks : s.nChunks = s.nextChunk
  agree : ∃ L, PageInv L s

namespace PageInv

variable {L : Layout} {s s' : ScanSys} {p q a : ℕ} {t u v : Tile} {d d' : PageHeader}

/-- A node is the node of a tile. -/
theorem node (h : PageInv L s) {b : ArenaBlock} (hb : b ∈ (s.trees a).toList) :
    ∃ p, L p = some (.block b.nPages (.pool a)) ∧ b = ⟨4096 * p, b.nPages, a⟩ := by
  obtain ⟨p, hp, haddr, harena⟩ := ((h.pages a).mem b).mp hb
  exact ⟨p, hp, by rw [← haddr, ← harena]⟩

theorem mem_freePageruns {b : ArenaBlock} :
    b ∈ s.freePageruns ↔ ∃ a < initialArenas, b ∈ (s.trees a).toList := by
  simp only [ScanSys.freePageruns, List.mem_flatMap, List.mem_range]

/-- A page run in use is a tile. -/
theorem tile_of_used (h : PageInv L s) {x : PageUse} (hx : s.used p = some x) :
    ∃ t, L p = some t ∧ t.use = some x := by
  rw [h.used] at hx
  exact Option.bind_eq_some_iff.mp hx

/-- Agreement with a layout keeps every page run in one place. -/
theorem pagesOnce (h : PageInv L s) : PagesOnce s where
  once := by
    have hsame : ∀ {a a' : ℕ} {b b' : ArenaBlock}, b ∈ (s.trees a).toList → b' ∈ (s.trees a').toList →
        b.nvmBlock = b'.nvmBlock → a = a' ∧ b = b' := by
      intro a a' b b' hb hb' haddr
      obtain ⟨p, hp, hbe⟩ := h.node hb
      obtain ⟨p', hp', hbe'⟩ := h.node hb'
      rw [hbe, hbe'] at haddr
      obtain rfl : p = p' := by
        simp only at haddr
        omega
      rw [hp, Option.some.injEq, Tile.block.injEq, Owner.pool.injEq] at hp'
      refine ⟨hp'.2, ?_⟩
      rw [hbe, hbe', hp'.1, hp'.2]
    apply List.Nodup.map_on
    · intro b hb b' hb' haddr
      obtain ⟨a, -, hba⟩ := mem_freePageruns.mp hb
      obtain ⟨a', -, hba'⟩ := mem_freePageruns.mp hb'
      exact (hsame hba hba' haddr).2
    · rw [ScanSys.freePageruns, List.nodup_flatMap]
      refine ⟨fun a _ => (h.pages a).nodup, ?_⟩
      refine List.nodup_range.imp fun {a a'} hne b hb hb' => hne ?_
      exact (hsame hb hb' rfl).1
  apart b hb p x hx := by
    obtain ⟨a, -, hba⟩ := mem_freePageruns.mp hb
    obtain ⟨q, hq, hbe⟩ := h.node hba
    obtain ⟨t, ht, huse⟩ := h.tile_of_used hx
    obtain ⟨hlen, hpool⟩ := Tile.use_eq_some huse
    have hne : q ≠ p := by
      rintro rfl
      exact hpool _ _ (Option.some.inj (ht.symm.trans hq))
    have hdisj := h.ok.disjoint hq ht hne
    rw [hbe]
    simp only [Tile.len_block, hlen, blockSize] at hdisj ⊢
    omega

/-! ## How the layout moves -/

theorem poolRun_congr {L' : Layout} {b : ArenaBlock}
    (hiff : ∀ p, L' p = some (.block b.nPages (.pool a)) ↔ L p = some (.block b.nPages (.pool a))) :
    PoolRun L' a b ↔ PoolRun L a b := by
  simp only [PoolRun, hiff]

theorem poolChunks_congr {L' : Layout} {x : Huge}
    (hiff : ∀ p, L' p = some (.huge x.nChunks (.pool 0)) ↔ L p = some (.huge x.nChunks (.pool 0))) :
    PoolChunks L' x ↔ PoolChunks L x := by
  simp only [PoolChunks, hiff]

/-- The tile at `p` changes, but not its length. -/
theorem relabel (h : PageInv L s) (hp : L p = some t) (hlen : u.len = t.len) (hfits : u.Fits p)
    (hnext : s'.nextChunk = s.nextChunk) (hheader : s'.header = Function.update s.header p d)
    (hhd : HeaderFor d p u) (hpages : ∀ a, (s'.trees a).Holds (PoolRun (L.set p u) a))
    (hchunks : s'.freeChunks.Holds (PoolChunks (L.set p u)))
    (hused : s'.used = Function.update s.used p u.use)
    (harena : ∀ n a, u = .block n (.pool a) → a < initialArenas) : PageInv (L.set p u) s' where
  ok := by
    rw [hnext]
    exact h.ok.relabel hp hlen hfits
  le := hnext ▸ h.le
  header := by
    intro x v hx
    rw [hheader]
    rcases Layout.set_eq_some hx with ⟨rfl, rfl⟩ | ⟨hne, hx⟩
    · rwa [Function.update_self]
    · rw [Function.update_of_ne hne]
      exact h.header hx
  pages := hpages
  chunks := hchunks
  used x := by
    rw [hused]
    by_cases hx : x = p
    · rw [hx, Function.update_self, Layout.set_self, Option.bind_some]
    · rw [Function.update_of_ne hx, Layout.set_of_ne hx]
      exact h.used x
  arenas := by
    intro x n a hx
    rcases Layout.set_eq_some hx with ⟨-, hu⟩ | ⟨-, hx⟩
    · exact harena n a hu.symm
    · exact h.arenas hx

/-- No tile starts where the tail of another one does. -/
theorem none_tail (h : PageInv L s) {k : ℕ} (hp : L p = some t) (hk : 0 < k) (hkt : k < t.len)
    (hq : q = p + t.len - k) : L q = none :=
  h.ok.none_inside hp (by omega) (by omega)

/-- The tail of the tile at `p` becomes a tile of its own. -/
theorem split (h : PageInv L s) (s' : ScanSys) {k : ℕ} (hp : L p = some t) (hk : 0 < k) (hkt : k < t.len)
    (hq : q = p + t.len - k) (hu : u.len = t.len - k) (hv : v.len = k) (hfits : u.Fits p)
    (hfits' : v.Fits q) (hnext : s'.nextChunk = s.nextChunk)
    (hheader : s'.header = Function.update (Function.update s.header q d') p d)
    (hhd : HeaderFor d p u) (hhd' : HeaderFor d' q v)
    (htrees : s'.trees = s.trees) (hfree : s'.freeChunks = s.freeChunks)
    (hused : s'.used = Function.update s.used q v.use) (huse : u.use = t.use) (ht' : t.Unpooled)
    (hu' : u.Unpooled) (hv' : v.Unpooled) : PageInv ((L.set p u).set q v) s' where
  ok := by
    rw [hnext]
    subst hq
    exact h.ok.split hp hk hkt hu hv hfits hfits'
  le := hnext ▸ h.le
  header := by
    have hqp : q ≠ p := by omega
    intro x w hx
    rw [hheader]
    rcases Layout.set_eq_some hx with ⟨rfl, rfl⟩ | ⟨hne, hx⟩
    · rwa [Function.update_of_ne hqp, Function.update_self]
    · rcases Layout.set_eq_some hx with ⟨rfl, rfl⟩ | ⟨hne', hx⟩
      · rwa [Function.update_self]
      · rw [Function.update_of_ne hne', Function.update_of_ne hne]
        exact h.header hx
  pages a := by
    rw [htrees]
    exact (h.pages a).congr fun b => poolRun_congr fun x =>
      Layout.split_eq_some_iff hp (h.none_tail hp hk hkt hq) (ht' _ _).1 (hu' _ _).1 (hv' _ _).1
  chunks := by
    rw [hfree]
    exact h.chunks.congr fun y => poolChunks_congr fun x =>
      Layout.split_eq_some_iff hp (h.none_tail hp hk hkt hq) (ht' _ _).2 (hu' _ _).2 (hv' _ _).2
  used x := by
    rw [hused]
    by_cases hx : x = q
    · rw [hx, Function.update_self, Layout.set_self, Option.bind_some]
    · rw [Function.update_of_ne hx, Layout.set_of_ne hx, h.used x]
      by_cases hx' : x = p
      · rw [hx', Layout.set_self, hp, Option.bind_some, Option.bind_some, huse]
      · rw [Layout.set_of_ne hx']
  arenas := by
    intro x n a hx
    rcases Layout.set_eq_some hx with ⟨-, hw⟩ | ⟨-, hx⟩
    · exact absurd hw.symm (hv' n a).1
    · rcases Layout.set_eq_some hx with ⟨-, hw⟩ | ⟨-, hx⟩
      · exact absurd hw.symm (hu' n a).1
      · exact h.arenas hx

/-- New tiles are added behind the end of the heap. -/
theorem grow (h : PageInv L s) {L' : Layout} (hok : L'.Ok s'.nextChunk)
    (hle : s'.nextChunk ≤ maxNvmChunks) (hold : ∀ x < 1024 * s.nextChunk, L' x = L x)
    (hheader : ∀ x < 1024 * s.nextChunk, s'.header x = s.header x) (htrees : s'.trees = s.trees)
    (hfree : s'.freeChunks = s.freeChunks) (hused : ∀ x < 1024 * s.nextChunk, s'.used x = s.used x)
    (hused' : ∀ x, 1024 * s.nextChunk ≤ x → s'.used x = (L' x).bind Tile.use)
    (hnew : ∀ x t, 1024 * s.nextChunk ≤ x → L' x = some t →
      HeaderFor (s'.header x) x t ∧ t.Unpooled) : PageInv L' s' := by
  have hend : ∀ {x}, 1024 * s.nextChunk ≤ x → L x = none := fun hx => h.ok.eq_none hx
  have hpool : ∀ n a, (∀ x, L' x = some (.block n (.pool a)) ↔ L x = some (.block n (.pool a))) ∧
      ∀ x, L' x = some (.huge n (.pool a)) ↔ L x = some (.huge n (.pool a)) := by
    intro n a
    refine ⟨fun x => ?_, fun x => ?_⟩ <;> rcases Nat.lt_or_ge x (1024 * s.nextChunk) with hx | hx
    · rw [hold x hx]
    · rw [hend hx]
      exact ⟨fun hbad => absurd rfl ((hnew x _ hx hbad).2 n a).1, fun hbad => by cases hbad⟩
    · rw [hold x hx]
    · rw [hend hx]
      exact ⟨fun hbad => absurd rfl ((hnew x _ hx hbad).2 n a).2, fun hbad => by cases hbad⟩
  refine ⟨hok, hle, fun {x t} hx => ?_, fun a => ?_, ?_, fun x => ?_, fun {x n a} hx => ?_⟩
  · rcases Nat.lt_or_ge x (1024 * s.nextChunk) with hlt | hge
    · rw [hold x hlt] at hx
      rw [hheader x hlt]
      exact h.header hx
    · exact (hnew x t hge hx).1
  · rw [htrees]
    exact (h.pages a).congr fun b => poolRun_congr (hpool b.nPages a).1
  · rw [hfree]
    exact h.chunks.congr fun x => poolChunks_congr (hpool x.nChunks 0).2
  · rcases Nat.lt_or_ge x (1024 * s.nextChunk) with hlt | hge
    · rw [hused x hlt, hold x hlt]
      exact h.used x
    · exact hused' x hge
  · exact h.arenas (((hpool n a).1 x).mp hx)

/-- The tile at `p` changes, and the pools are not concerned. -/
theorem relabelUnpooled (h : PageInv L s) (s' : ScanSys) (hp : L p = some t) (hlen : u.len = t.len)
    (hfits : u.Fits p)
    (hnext : s'.nextChunk = s.nextChunk) (hheader : s'.header = Function.update s.header p d)
    (hhd : HeaderFor d p u) (htrees : s'.trees = s.trees) (hfree : s'.freeChunks = s.freeChunks)
    (hused : s'.used = Function.update s.used p u.use) (ht : t.Unpooled) (hu : u.Unpooled) :
    PageInv (L.set p u) s' := by
  refine h.relabel hp hlen hfits hnext hheader hhd (fun a => ?_) ?_ hused fun n a hbad =>
    absurd hbad (hu n a).1
  · rw [htrees]
    exact (h.pages a).congr fun b => poolRun_congr fun x =>
      Layout.set_eq_some_iff (by rw [hp]; simpa using (ht _ _).1) (hu _ _).1
  · rw [hfree]
    exact h.chunks.congr fun y => poolChunks_congr fun x =>
      Layout.set_eq_some_iff (by rw [hp]; simpa using (ht _ _).2) (hu _ _).2

/-- A node is unlinked from its tree. -/
theorem takePages (h : PageInv L s) {b : ArenaBlock} (hb : b ∈ (s.trees a).toList) :
    ∃ p, L p = some (.block b.nPages (.pool a)) ∧ b = ⟨4096 * p, b.nPages, a⟩ ∧
      PageInv (L.set p (.block b.nPages .held))
        { s with trees := Function.update s.trees a ((s.trees a).treeDel b) } := by
  obtain ⟨p, hp, hbe⟩ := h.node hb
  have hfits := h.ok.fits hp
  have hheader := h.header hp
  refine ⟨p, hp, hbe, h.relabel hp rfl hfits rfl (Function.update_eq_self p s.header).symm hheader
    (fun a' => ?_) ?_ ?_ (by simp)⟩
  · by_cases ha : a' = a
    · subst ha
      show (Function.update s.trees a' _ a').Holds _
      rw [Function.update_self]
      refine (h.pages a').treeDel (((h.pages a').mem b).mp hb) fun x => ?_
      rw [PoolRun.unset hp (by simp), ← hbe]
    · show (Function.update s.trees a _ a').Holds _
      rw [Function.update_of_ne ha]
      refine (h.pages a').congr fun x => ?_
      rw [PoolRun.unset hp (by simp)]
      refine and_iff_left_of_imp fun hx hxe => ha ?_
      obtain ⟨-, -, -, harena⟩ := hx
      rw [← harena, hxe]
  · exact h.chunks.congr fun x => PoolChunks.set_block hp
  · have hnone : s.used p = none := by
      rw [h.used p, hp]
      rfl
    show s.used = Function.update s.used p none
    rw [← hnone, Function.update_eq_self]

/-- A page run is put into the tree of arena `a`. -/
theorem putPages (h : PageInv L s) (s' : ScanSys) {n : ℕ} {o : Owner} (hp : L p = some (.block n o))
    (ho : ∀ a, o ≠ .pool a) (ha : a < initialArenas) (hnext : s'.nextChunk = s.nextChunk)
    (hheader : s'.header = Function.update s.header p d) (hhd : HeaderFor d p (.block n (.pool a)))
    (htrees : s'.trees =
      Function.update s.trees a ((s.trees a).treeAdd ArenaBlock.nPages ⟨4096 * p, n, a⟩))
    (hfree : s'.freeChunks = s.freeChunks) (hused : s'.used = Function.update s.used p none) :
    PageInv (L.set p (.block n (.pool a))) s' := by
  have hfits := h.ok.fits hp
  refine h.relabel hp rfl hfits hnext hheader hhd (fun a' => ?_) ?_ hused fun n' a' heq => ?_
  · rw [htrees]
    by_cases haa : a' = a
    · subst haa
      rw [Function.update_self]
      refine (h.pages a').treeAdd ?_ fun x => ?_
      · rintro ⟨q, hq, haddr, -⟩
        obtain rfl : q = p := by
          simp only at haddr
          omega
        rw [hp, Option.some.injEq, Tile.block.injEq] at hq
        exact ho a' hq.2
      · rw [PoolRun.set hp ho, and_iff_left rfl]
    · rw [Function.update_of_ne haa]
      refine (h.pages a').congr fun x => ?_
      rw [PoolRun.set hp ho, or_iff_right fun hx => haa hx.2]
  · rw [hfree]
    exact h.chunks.congr fun x => PoolChunks.set_block hp
  · rw [Tile.block.injEq, Owner.pool.injEq] at heq
    exact heq.2 ▸ ha

/-- A huge region is unlinked from the tree of free chunks. -/
theorem takeChunks (h : PageInv L s) {x : Huge} (hx : x ∈ s.freeChunks.toList) :
    ∃ p, L p = some (.huge x.nChunks (.pool 0)) ∧ x = ⟨4096 * p, x.nChunks⟩ ∧
      PageInv (L.set p (.huge x.nChunks .held)) { s with freeChunks := s.freeChunks.treeDel x } := by
  obtain ⟨p, hp, haddr⟩ := (h.chunks.mem x).mp hx
  have hxe : x = ⟨4096 * p, x.nChunks⟩ := by rw [← haddr]
  have hfits := h.ok.fits hp
  have hheader := h.header hp
  refine ⟨p, hp, hxe, h.relabel hp rfl hfits rfl (Function.update_eq_self p s.header).symm hheader
    (fun a => ?_) ?_ ?_ (by simp)⟩
  · exact (h.pages a).congr fun b => PoolRun.set_huge hp
  · refine h.chunks.treeDel ((h.chunks.mem x).mp hx) fun y => ?_
    rw [PoolChunks.unset hp (by simp), ← hxe]
  · have hnone : s.used p = none := by
      rw [h.used p, hp]
      rfl
    show s.used = Function.update s.used p none
    rw [← hnone, Function.update_eq_self]

/-- A huge region is put into the tree of free chunks. -/
theorem putChunks (h : PageInv L s) (s' : ScanSys) {n : ℕ} {o : Owner} (hp : L p = some (.huge n o))
    (ho : ∀ a, o ≠ .pool a) (hnext : s'.nextChunk = s.nextChunk)
    (hheader : s'.header = Function.update s.header p d) (hhd : HeaderFor d p (.huge n (.pool 0)))
    (htrees : s'.trees = s.trees)
    (hfree : s'.freeChunks = s.freeChunks.treeAdd Huge.nChunks ⟨4096 * p, n⟩)
    (hused : s'.used = Function.update s.used p none) :
    PageInv (L.set p (.huge n (.pool 0))) s' := by
  have hfits := h.ok.fits hp
  refine h.relabel hp rfl hfits hnext hheader hhd (fun a => ?_) ?_ hused (by simp)
  · rw [htrees]
    exact (h.pages a).congr fun b => PoolRun.set_huge hp
  · rw [hfree]
    refine h.chunks.treeAdd ?_ fun x => ?_
    · rintro ⟨q, hq, haddr⟩
      obtain rfl : q = p := by
        simp only at haddr
        omega
      rw [hp, Option.some.injEq, Tile.huge.injEq] at hq
      exact ho 0 hq.2
    · exact PoolChunks.set hp ho

end PageInv

/-! ## What a call does to the layout -/

/-- The tile at `p` may change, tiles may be added, and all other tiles stay. -/
structure Layout.Touches (L : Layout) (p : ℕ) (L' : Layout) : Prop where
  rest : ∀ {x t}, x ≠ p → L x = some t → L' x = some t
  self : ∀ {t}, L p = some t → ∃ u, L' p = some u ∧ (t ≠ .arena → u ≠ .arena)

/-- From `s` to `s'` at most the tile at `p` changed, and the recovery thread did not move. -/
structure Effect (p : ℕ) (L : Layout) (s : ScanSys) (L' : Layout) (s' : ScanSys) : Prop where
  inv : PageInv L' s'
  touches : L.Touches p L'
  pc : s'.pc = s.pc
  nChunks : s'.nChunks = s.nChunks
  le : s.nextChunk ≤ s'.nextChunk
  next : s'.nextChunk = s.nextChunk ∨ ∃ t, L' (1024 * s.nextChunk) = some t

section

variable {L L' L'' : Layout} {s s' s'' : ScanSys} {p q a n : ℕ} {t u v : Tile} {b : ArenaBlock}

theorem Layout.touches_set (hu : u ≠ .arena) : L.Touches p (L.set p u) where
  rest hne hx := by rwa [Layout.set_of_ne hne]
  self _ := ⟨u, Layout.set_self, fun _ => hu⟩

theorem Layout.touches_split (hp : L p = some t) (hq : L q = none) (hu : u ≠ .arena) :
    L.Touches p ((L.set p u).set q v) := by
  have hqp : p ≠ q := by
    rintro rfl
    rw [hp] at hq
    cases hq
  refine ⟨fun {x w} hne hx => ?_, fun _ => ⟨u, ?_, fun _ => hu⟩⟩
  · have hxq : x ≠ q := by
      rintro rfl
      rw [hx] at hq
      cases hq
    rwa [Layout.set_of_ne hxq, Layout.set_of_ne hne]
  · rw [Layout.set_of_ne hqp, Layout.set_self]

theorem Layout.Touches.trans (h : L.Touches p L') (h' : L'.Touches p L'') : L.Touches p L'' where
  rest hne hx := h'.rest hne (h.rest hne hx)
  self hp := by
    obtain ⟨u, hu, hua⟩ := h.self hp
    obtain ⟨v, hv, hva⟩ := h'.self hu
    exact ⟨v, hv, fun ht => hva (hua ht)⟩

/-- A tile never goes away. -/
theorem Layout.Touches.exists_tile {x : ℕ} (h : L.Touches p L') (hx : L x = some t) :
    ∃ u, L' x = some u ∧ (t ≠ .arena → u ≠ .arena) := by
  by_cases hne : x = p
  · subst hne
    exact h.self hx
  · exact ⟨t, h.rest hne hx, id⟩

theorem Effect.trans (h : Effect p L s L' s') (h' : Effect p L' s' L'' s'') : Effect p L s L'' s'' where
  inv := h'.inv
  touches := h.touches.trans h'.touches
  pc := h'.pc.trans h.pc
  nChunks := h'.nChunks.trans h.nChunks
  le := h.le.trans h'.le
  next := by
    rcases h.next with heq | ⟨t, ht⟩
    · rw [← heq]
      exact h'.next
    · obtain ⟨u, hu, -⟩ := h'.touches.exists_tile ht
      exact Or.inr ⟨u, hu⟩

/-- A call that changes the tile at `p` in a heap that does not grow. -/
theorem PageInv.effect (h : PageInv L' s') (htouches : L.Touches p L') (hpc : s'.pc = s.pc)
    (hnChunks : s'.nChunks = s.nChunks) (hnext : s'.nextChunk = s.nextChunk) : Effect p L s L' s' :=
  ⟨h, htouches, hpc, hnChunks, hnext.ge, Or.inl hnext⟩

/-- A block lies inside a chunk. -/
theorem PageInv.block_bounds {o : Owner} (h : PageInv L s) (hp : L p = some (.block n o)) :
    0 < n ∧ p % 1024 ≠ 0 ∧ p % 1024 + n ≤ 1024 := by
  have hpos := h.ok.len_pos hp
  have hfits := h.ok.fits hp
  exact ⟨hpos, hfits.1, hfits.2⟩

/-- Behind the end of the heap there is no tile. -/
theorem PageInv.lt_end (h : PageInv L s) (hp : L p = some t) : p < 1024 * s.nextChunk := by
  by_contra hge
  rw [h.ok.eq_none (by omega)] at hp
  cases hp

/-- The block of a new chunk is in nobody's hands but those of the call. -/
theorem PageInv.addChunk (h : PageInv L s) (hadd : s.addChunk a = some (b, s')) :
    ∃ p L', Effect p L s L' s' ∧ L p = none ∧ L' p = some (.block 1023 .held) ∧
      b = ⟨4096 * p, 1023, a⟩ := by
  unfold ScanSys.addChunk at hadd
  split at hadd
  case isTrue => cases hadd
  case isFalse hroom =>
    cases hadd
    have hend : ∀ {x}, 1024 * s.nextChunk ≤ x → L x = none := fun hx => h.ok.eq_none hx
    have hold : ∀ x < 1024 * s.nextChunk, ((L.set (1024 * s.nextChunk) .arena).set
        (1024 * s.nextChunk + 1) (.block 1023 .held)) x = L x := by
      intro x hx
      rw [Layout.set_of_ne (by omega), Layout.set_of_ne (by omega)]
    have hok := h.ok.growChunk (u := .block 1023 .held) rfl ⟨by omega, by omega⟩
    refine ⟨1024 * s.nextChunk + 1, _, ⟨h.grow hok (by show s.nextChunk + 1 ≤ maxNvmChunks; omega) hold
      (fun x hx => ?_) rfl rfl (fun _ _ => rfl) (fun x hx => ?_) (fun x t hx ht => ?_), ⟨?_, ?_⟩,
      rfl, rfl, Nat.le_succ _, Or.inr ⟨.arena, ?_⟩⟩, hend (by omega), Layout.set_self, rfl⟩
    · show Function.update (Function.update s.header _ _) _ _ x = s.header x
      rw [Function.update_of_ne (by omega), Function.update_of_ne (by omega)]
    · -- neither of the new tiles is in use
      show s.used x = _
      rw [h.used x, hend hx]
      by_cases hx1 : x = 1024 * s.nextChunk + 1
      · rw [hx1, Layout.set_self]
        rfl
      · rw [Layout.set_of_ne hx1]
        by_cases hx0 : x = 1024 * s.nextChunk
        · rw [hx0, Layout.set_self]
          rfl
        · rw [Layout.set_of_ne hx0, hend hx]
    · show HeaderFor (Function.update (Function.update s.header _ _) _ _ x) x t ∧ _
      rcases Layout.growChunk_cases ht with ⟨rfl, rfl⟩ | ⟨rfl, rfl⟩ | hbad
      · rw [Function.update_self]
        exact ⟨⟨rfl, rfl⟩, by simp [Tile.Unpooled]⟩
      · rw [Function.update_of_ne (by omega), Function.update_self]
        exact ⟨rfl, by simp [Tile.Unpooled]⟩
      · rw [hend hx] at hbad
        cases hbad
    · intro x t _ hx
      rw [hold x (h.lt_end hx)]
      exact hx
    · intro t ht
      exact absurd (h.lt_end ht) (by omega)
    · rw [Layout.set_of_ne (by omega), Layout.set_self]

/-- The block at the head of `arena_create_run` and `arena_create_block` is in nobody's hands but those
of the call. -/
theorem PageInv.takeBlock (h : PageInv L s) {req : ℕ} (hreq : req ≤ 1023)
    (htake : s.takeBlock a req = some (b, s')) :
    ∃ p L', Effect p L s L' s' ∧ (∀ n, L p ≠ some (.block n .held)) ∧
      L' p = some (.block b.nPages .held) ∧ b = ⟨4096 * p, b.nPages, a⟩ ∧ req ≤ b.nPages := by
  unfold ScanSys.takeBlock at htake
  cases hub : blockUpperBound req (s.trees a) with
  | some x =>
    rw [hub] at htake
    obtain ⟨rfl, rfl⟩ := Prod.mk.inj (Option.some.inj htake)
    have hx : x ∈ (s.trees a).toList := (SearchTree.treeUpperBound_mem hub).resolve_right (by simp)
    obtain ⟨p, hp, hxe, hinv⟩ := h.takePages hx
    refine ⟨p, _, hinv.effect (Layout.touches_set (by simp)) rfl rfl rfl, ?_, Layout.set_self, hxe,
      SearchTree.le_key_treeUpperBound (by simp) hub⟩
    simp [hp]
  | none =>
    rw [hub] at htake
    obtain ⟨p, L', heff, hnone, hp, rfl⟩ := h.addChunk htake
    exact ⟨p, L', heff, by simp [hnone], hp, rfl, hreq⟩

/-- The account of a tile that nobody owns. -/
theorem PageInv.used_held (h : PageInv L s) (hp : L p = some (.block n .held)) :
    Function.update s.used p none = s.used := by
  have hnone : s.used p = none := by
    rw [h.used p, hp]
    rfl
  rw [← hnone, Function.update_eq_self]

/-- The rest of a block goes back into the tree. -/
theorem PageInv.putBack (h : PageInv L s) (ha : a < initialArenas) (hp : L p = some (.block n .held)) :
    Effect p L s (L.set p (.block n (.pool a))) (s.addFree a ⟨4096 * p, n, a⟩) := by
  have hheader := h.header hp
  have hinv := h.putPages (s.addFree a ⟨4096 * p, n, a⟩) hp (by simp) ha rfl
    (Function.update_eq_self p s.header).symm hheader rfl rfl (h.used_held hp).symm
  exact hinv.effect (Layout.touches_set (by simp)) rfl rfl rfl

/-- The last `k` pages of a block become a tile, and the rest of it goes back into the tree. -/
theorem PageInv.cutTail (h : PageInv L s) (ha : a < initialArenas) {m k : ℕ} {d : PageHeader}
    (hp : L p = some (.block m .held)) (hk : 0 < k) (hkm : k < m) (hq : q = p + (m - k)) (hv : v.len = k)
    (hfits : v.Fits q) (hhd : HeaderFor d q v) (hpool : v.Unpooled) :
    ∃ L', Effect p L s L' ((((s.setHeader q d).setHeader p { s.header p with count := m - k }).addFree a
      ⟨4096 * p, m - k, a⟩).setUsed q v.use) := by
  obtain ⟨-, hmod, hchunk⟩ := h.block_bounds hp
  have hkl : k < (Tile.block m .held).len := hkm
  have hql : q = p + (Tile.block m .held).len - k := by
    rw [Tile.len_block]
    omega
  have hsplit := h.split (u := .block (m - k) .held)
    (((s.setHeader q d).setHeader p { s.header p with count := m - k }).setUsed q v.use) hp hk hkl
    hql rfl hv ⟨hmod, by omega⟩ hfits rfl rfl
    ⟨(h.header hp).1, rfl⟩ hhd rfl rfl rfl rfl (by simp [Tile.Unpooled]) (by simp [Tile.Unpooled]) hpool
  have heff : Effect p L s _ _ :=
    hsplit.effect (Layout.touches_split hp (h.none_tail hp hk hkl hql) (by simp)) rfl rfl rfl
  have hrest : ((L.set p (.block (m - k) .held)).set q v) p = some (.block (m - k) .held) := by
    rw [Layout.set_of_ne (by omega), Layout.set_self]
  exact ⟨_, heff.trans (hsplit.putBack ha hrest)⟩

/-- A block that nobody owns becomes a tile of another kind. -/
theorem PageInv.turnInto (h : PageInv L s) {m : ℕ} {d : PageHeader} (hp : L p = some (.block m .held))
    (hv : v.len = m) (hfits : v.Fits p) (hhd : HeaderFor d p v) (hpool : v.Unpooled) (hne : v ≠ .arena) :
    ∃ L', Effect p L s L' ((s.setHeader p d).setUsed p v.use) := by
  have hinv := h.relabelUnpooled ((s.setHeader p d).setUsed p v.use) hp hv hfits rfl rfl hhd rfl rfl
    rfl (by simp [Tile.Unpooled]) hpool
  exact ⟨_, hinv.effect (Layout.touches_set hne) rfl rfl rfl⟩

/-- `arena_create_block` hands out the tail of the block, or the whole block. -/
theorem PageInv.cutBlock (h : PageInv L s) (ha : a < initialArenas)
    (hp : L p = some (.block b.nPages .held)) (hb : b = ⟨4096 * p, b.nPages, a⟩) (hn : 1 ≤ n)
    (hle : n ≤ b.nPages) (hcut : s.cutBlock a n b = some (q, s')) :
    ∃ L', Effect p L s L' (s'.setUsed q (some ⟨n, .reserved⟩)) := by
  obtain ⟨-, hmod, hfits⟩ := h.block_bounds hp
  have hpage : b.nvmBlock / blockSize = p := by
    rw [hb]
    simp only [blockSize]
    omega
  have hheader := h.header hp
  have hcount := hheader.2
  unfold ScanSys.cutBlock at hcut
  rw [hpage] at hcut
  simp only at hcut
  split at hcut
  case isTrue hmany =>
    have hqp : p ≠ p + (b.nPages - n) := by omega
    have hleft : ((s.header p).count + 2 ^ 32 - n) % 2 ^ 32 = b.nPages - n := by omega
    simp only [ScanSys.setHeader, Function.update_of_ne hqp, hleft] at hcut
    rw [if_pos (by omega)] at hcut
    cases hcut
    have hcuts := h.cutTail (d := ⟨usageFree, n, a⟩) (v := .block n (.user false)) ha hp hn hmany rfl rfl
      ⟨by omega, by omega⟩ ⟨rfl, rfl⟩ (by simp [Tile.Unpooled])
    rw [hb]
    exact hcuts
  case isFalse hone =>
    cases hcut
    obtain rfl : n = b.nPages := by omega
    have hwhole := h.turnInto (v := .block b.nPages (.user false)) hp rfl ⟨hmod, hfits⟩ hheader
      (by simp [Tile.Unpooled]) (by simp)
    rwa [ScanSys.setHeader, Function.update_eq_self] at hwhole

/-- `arena_create_run` turns the last page of the block into a run. -/
theorem PageInv.cutRun (h : PageInv L s) (ha : a < initialArenas)
    (hp : L p = some (.block b.nPages .held)) (hb : b = ⟨4096 * p, b.nPages, a⟩) :
    ∃ L', Effect p L s L' ((s.cutRun a b).2.setUsed (s.cutRun a b).1 (some ⟨1, .slots⟩)) := by
  obtain ⟨hpos, hmod, hfits⟩ := h.block_bounds hp
  have hpage : b.nvmBlock / blockSize = p := by
    rw [hb]
    simp only [blockSize]
    omega
  unfold ScanSys.cutRun
  rw [hpage]
  by_cases hmany : b.nPages > 1
  · have hqp : p ≠ p + (b.nPages - 1) := by omega
    simp only [if_pos hmany, ScanSys.setHeader, Function.update_of_ne hqp]
    have hcuts := h.cutTail (d := ScanSys.runHeader) (v := .run 0) ha hp Nat.one_pos hmany rfl rfl
      (by show (p + (b.nPages - 1)) % 1024 ≠ 0; omega) ⟨rfl, rfl⟩ (by simp [Tile.Unpooled])
    rw [hb]
    exact hcuts
  · simp only [if_neg hmany]
    exact h.turnInto (v := .run 0) hp (by rw [Tile.len_run]; omega) hmod ⟨rfl, rfl⟩
      (by simp [Tile.Unpooled]) (by simp)

/-! ## The calls -/

/-- A call keeps the agreement with a layout, in which at most one tile has changed that was there
before, and not one that nobody owns. -/
def Keeps (L : Layout) (s s' : ScanSys) : Prop :=
  ∃ p L', Effect p L s L' s' ∧ ∀ n, L p ≠ some (.block n .held)

theorem PageInv.reserveLarge (h : PageInv L s) (ha : a < initialArenas) (hn : 1 ≤ n) (hn' : n ≤ 1023)
    (hres : s.reserveLarge a n = some s') : Keeps L s s' := by
  obtain ⟨⟨b, s₁⟩, htake, hmap⟩ := Option.bind_eq_some_iff.mp hres
  obtain ⟨⟨q, s₂⟩, hcut, rfl⟩ := Option.map_eq_some_iff.mp hmap
  obtain ⟨p, L₁, heff, hheld, hp, hb, hle⟩ := h.takeBlock hn' htake
  obtain ⟨L₂, heff'⟩ := heff.inv.cutBlock ha hp hb hn hle hcut
  exact ⟨p, L₂, heff.trans heff', hheld⟩

theorem PageInv.reserveRun (h : PageInv L s) (ha : a < initialArenas) (hres : s.reserveRun a = some s') :
    Keeps L s s' := by
  obtain ⟨⟨b, s₁⟩, htake, rfl⟩ := Option.map_eq_some_iff.mp hres
  obtain ⟨p, L₁, heff, hheld, hp, hb, -⟩ := h.takeBlock (by decide) htake
  obtain ⟨L₂, heff'⟩ := heff.inv.cutRun ha hp hb
  exact ⟨p, L₂, heff.trans heff', hheld⟩

/-- New chunks for a huge region. -/
theorem PageInv.growHuge (h : PageInv L s) (hn : 1 ≤ n) (hroom : s.nextChunk + n ≤ maxNvmChunks) :
    Keeps L s ((({ s with nextChunk := s.nextChunk + n } : ScanSys).setHeader (1024 * s.nextChunk)
      { s.header (1024 * s.nextChunk) with usage := usageHuge, count := n }).setUsed (1024 * s.nextChunk)
      (some ⟨1024 * n, .reserved⟩)) := by
  have hend : ∀ {x}, 1024 * s.nextChunk ≤ x → L x = none := fun hx => h.ok.eq_none hx
  have hok := h.ok.append (t := .huge n (.user false)) hn rfl (Nat.mul_mod_right 1024 s.nextChunk)
  have hold : ∀ x < 1024 * s.nextChunk, L.set (1024 * s.nextChunk) (.huge n (.user false)) x = L x := by
    intro x hx
    rw [Layout.set_of_ne (by omega)]
  refine ⟨1024 * s.nextChunk, _, ⟨h.grow hok hroom hold (fun x hx => ?_) rfl rfl (fun x hx => ?_)
    (fun x hx => ?_) (fun x t hx ht => ?_), Layout.touches_set (by simp), rfl, rfl, Nat.le_add_right _ _,
    Or.inr ⟨_, Layout.set_self⟩⟩, by simp [hend le_rfl]⟩
  · show Function.update s.header _ _ x = s.header x
    rw [Function.update_of_ne (by omega)]
  · show Function.update s.used _ _ x = s.used x
    rw [Function.update_of_ne (by omega)]
  · show Function.update s.used _ _ x = _
    by_cases hxe : x = 1024 * s.nextChunk
    · rw [hxe, Function.update_self, Layout.set_self]
      rfl
    · rw [Function.update_of_ne hxe, Layout.set_of_ne hxe]
      exact h.used x
  · show HeaderFor (Function.update s.header _ _ x) x t ∧ _
    rcases Layout.set_eq_some ht with ⟨rfl, rfl⟩ | ⟨-, hbad⟩
    · rw [Function.update_self]
      exact ⟨⟨show usageHuge ≠ usageArena by decide, rfl⟩, by simp [Tile.Unpooled]⟩
    · rw [hend hx] at hbad
      cases hbad

/-- The last `n` chunks of a free region become a region of their own, and the rest of it goes back into
the tree. -/
theorem PageInv.splitChunks (h : PageInv L s) {m : ℕ} (hp : L p = some (.huge m .held)) (hn : 1 ≤ n)
    (hnm : n < m) (hq : q = p + 1024 * (m - n)) :
    ∃ L', Effect p L s L'
      ({ (s.setHeader q { s.header q with usage := usageFree, count := n }).setHeader p
      { s.header p with count := m - n } with
      freeChunks := s.freeChunks.treeAdd Huge.nChunks ⟨4096 * p, m - n⟩ }.setUsed q
        (some ⟨1024 * n, .reserved⟩)) := by
  have hfits : p % 1024 = 0 := h.ok.fits hp
  have hk : 0 < 1024 * n := by omega
  have hkl : 1024 * n < (Tile.huge m .held).len := by
    rw [Tile.len_huge]
    omega
  have hql : q = p + (Tile.huge m .held).len - 1024 * n := by
    rw [Tile.len_huge]
    omega
  have hsplit := h.split (u := .huge (m - n) .held) (v := .huge n (.user false))
    (((s.setHeader q { s.header q with usage := usageFree, count := n }).setHeader p
      { s.header p with count := m - n }).setUsed q (some ⟨1024 * n, .reserved⟩)) hp hk hkl hql
    (by rw [Tile.len_huge, Tile.len_huge]; omega) rfl hfits (by show q % 1024 = 0; omega) rfl rfl
    ⟨(h.header hp).1, rfl⟩ ⟨show usageFree ≠ usageArena by decide, rfl⟩ rfl rfl rfl rfl
    (by simp [Tile.Unpooled]) (by simp [Tile.Unpooled]) (by simp [Tile.Unpooled])
  have heff : Effect p L s _ _ :=
    hsplit.effect (Layout.touches_split hp (h.none_tail hp hk hkl hql) (by simp)) rfl rfl rfl
  have hrest : ((L.set p (.huge (m - n) .held)).set q (.huge n (.user false))) p =
      some (.huge (m - n) .held) := by
    rw [Layout.set_of_ne (by omega), Layout.set_self]
  have hheader := hsplit.header hrest
  have hnone := hsplit.used p
  rw [hrest] at hnone
  have hback := hsplit.putChunks
    ({ (s.setHeader q { s.header q with usage := usageFree, count := n }).setHeader p
      { s.header p with count := m - n } with
      freeChunks := s.freeChunks.treeAdd Huge.nChunks ⟨4096 * p, m - n⟩ }.setUsed q
        (some ⟨1024 * n, .reserved⟩)) hrest (by simp) rfl (Function.update_eq_self p _).symm hheader
        rfl rfl
    (by rw [show (none : Option PageUse) = _ from hnone.symm, Function.update_eq_self]; rfl)
  exact ⟨_, heff.trans (hback.effect (Layout.touches_set (by simp)) rfl rfl rfl)⟩

theorem PageInv.reserveChunks (h : PageInv L s) (hn : 1 ≤ n) (hn' : n < 2 ^ 32)
    (hres : s.reserveChunks n = some s') : Keeps L s s' := by
  unfold ScanSys.reserveChunks at hres
  rw [Nat.mod_eq_of_lt hn'] at hres
  cases hub : chunkUpperBound n s.freeChunks with
  | none =>
    rw [hub] at hres
    simp only at hres
    split at hres
    case isTrue => cases hres
    case isFalse hroom =>
      cases hres
      exact h.growHuge hn (by omega)
  | some x =>
    have hx : x ∈ s.freeChunks.toList := (SearchTree.treeUpperBound_mem hub).resolve_right (by simp)
    have hle : n ≤ x.nChunks := SearchTree.le_key_treeUpperBound (by simp) hub
    obtain ⟨p, hp, hxe, hinv⟩ := h.takeChunks hx
    have hheld : L.set p (.huge x.nChunks .held) p = some (.huge x.nChunks .held) := Layout.set_self
    have hfits : p % 1024 = 0 := h.ok.fits hp
    have hbound := h.ok.add_len_le hp
    have hmax := h.le
    simp only [Tile.len_huge, maxNvmChunks, maxNvmSpace, chunkSize] at hbound hmax
    have hheader := hinv.header hheld
    have hcount : (s.header p).count = x.nChunks := hheader.2
    have heff : Effect p L s _ _ := hinv.effect (Layout.touches_set (by simp)) rfl rfl rfl
    have haddr : x.nvmChunk = 4096 * p := congrArg Huge.nvmChunk hxe
    have hpage : x.nvmChunk / blockSize = p := by
      rw [haddr]
      simp only [blockSize]
      omega
    rw [hub] at hres
    simp only [hpage] at hres
    split at hres
    case isTrue hmany =>
      cases hres
      have hqp : p ≠ p + 1024 * (x.nChunks - n) := by omega
      have hleft : ((s.header p).count + 2 ^ 32 - n) % 2 ^ 32 = x.nChunks - n := by omega
      obtain ⟨L', hsplit⟩ := hinv.splitChunks hheld hn hmany rfl
      refine ⟨p, L', heff.trans ?_, by simp [hp]⟩
      simp only [ScanSys.setHeader, Function.update_of_ne hqp, hleft, haddr]
      exact hsplit
    case isFalse hone =>
      cases hres
      obtain rfl : n = x.nChunks := by omega
      have hgive := hinv.relabelUnpooled (u := .huge x.nChunks (.user false))
        (({ s with freeChunks := s.freeChunks.treeDel x } : ScanSys).setUsed p
          (some ⟨1024 * x.nChunks, .reserved⟩)) hheld rfl hfits rfl
        (Function.update_eq_self p s.header).symm hheader rfl rfl rfl (by simp [Tile.Unpooled])
        (by simp [Tile.Unpooled])
      exact ⟨p, _, heff.trans (hgive.effect (Layout.touches_set (by simp)) rfl rfl rfl), by simp [hp]⟩

theorem PageInv.reserve (h : PageInv L s) {nBytes : ℕ} {room : Bool} (ha : a < initialArenas)
    (hn : 1 ≤ nBytes) (hn' : nBytes ≤ maxNvmSpace) (hres : s.reserve a nBytes room = some s') :
    s' = s ∨ Keeps L s s' := by
  unfold ScanSys.reserve at hres
  split at hres
  case isTrue hlarge =>
    split at hres
    case isTrue =>
      cases room with
      | true => exact Or.inl (Option.some.inj hres).symm
      | false => exact Or.inr (h.reserveRun ha hres)
    case isFalse hsmall =>
      have hpages : 1 ≤ roundUp nBytes blockSize / blockSize ∧
          roundUp nBytes blockSize / blockSize ≤ 1023 := by
        simp only [sclassLargeMax, chunkSize] at hlarge
        rw [roundUp_blockSize, blockSize]
        omega
      exact Or.inr (h.reserveLarge ha hpages.1 hpages.2 hres)
  case isFalse hhuge =>
    have hchunks : 1 ≤ chunksFor nBytes ∧ chunksFor nBytes < 2 ^ 32 := by
      simp only [maxNvmSpace] at hn'
      simp only [chunksFor, headerSize, chunkSize]
      omega
    exact Or.inr (h.reserveChunks hchunks.1 hchunks.2 hres)

/-- What the client has reserved or activated is a huge region or a block. -/
theorem PageInv.tile_of_client (h : PageInv L s) {x : Bool}
    (hused : s.used p = some ⟨n, if x then .activated else .reserved⟩) :
    (∃ k, n = 1024 * k ∧ p % 1024 = 0 ∧ L p = some (.huge k (.user x))) ∨
      p % 1024 ≠ 0 ∧ L p = some (.block n (.user x)) := by
  obtain ⟨t, ht, huse⟩ := h.tile_of_used hused
  have hfits := h.ok.fits ht
  cases t with
  | huge k o =>
    cases o with
    | user b =>
      obtain ⟨rfl, hb⟩ := PageUse.mk.inj (Option.some.inj huse)
      obtain rfl : b = x := by cases b <;> cases x <;> simp at hb ⊢
      exact Or.inl ⟨k, rfl, hfits, ht⟩
    | _ => cases huse
  | block k o =>
    cases o with
    | user b =>
      obtain ⟨rfl, hb⟩ := PageUse.mk.inj (Option.some.inj huse)
      obtain rfl : b = x := by cases b <;> cases x <;> simp at hb ⊢
      exact Or.inr ⟨hfits.1, ht⟩
    | _ => cases huse
  | run k =>
    obtain ⟨-, hb⟩ := PageUse.mk.inj (Option.some.inj huse)
    cases x <;> cases hb
  | _ => cases huse

theorem PageInv.activate (h : PageInv L s) (hused : s.used p = some ⟨n, .reserved⟩) :
    Keeps L s ((s.activate p).setUsed p (some ⟨n, .activated⟩)) := by
  unfold ScanSys.activate
  rcases h.tile_of_client (x := false) hused with ⟨k, rfl, hmod, hp⟩ | ⟨hmod, hp⟩
  · rw [if_pos hmod]
    have hcount := (h.header hp).2
    have hinv := h.relabelUnpooled (u := .huge k (.user true))
      ((s.setHeader p { s.header p with usage := usageHuge }).setUsed p (some ⟨1024 * k, .activated⟩))
      hp rfl hmod rfl rfl ⟨show usageHuge ≠ usageArena by decide, hcount⟩ rfl rfl rfl
      (by simp [Tile.Unpooled]) (by simp [Tile.Unpooled])
    exact ⟨p, _, hinv.effect (Layout.touches_set (by simp)) rfl rfl rfl, by simp [hp]⟩
  · have husage : (s.header p).usage = usageFree := (h.header hp).1
    have hcount := (h.header hp).2
    have hfits := h.ok.fits hp
    rw [if_neg hmod, if_pos husage]
    have hinv := h.relabelUnpooled (u := .block n (.user true))
      ((s.setHeader p { s.header p with usage := usageBlock }).setUsed p (some ⟨n, .activated⟩))
      hp rfl hfits rfl rfl ⟨rfl, hcount⟩ rfl rfl rfl (by simp [Tile.Unpooled]) (by simp [Tile.Unpooled])
    exact ⟨p, _, hinv.effect (Layout.touches_set (by simp)) rfl rfl rfl, by simp [hp]⟩

theorem PageInv.free (h : PageInv L s) (hused : s.used p = some ⟨n, .activated⟩)
    (hfree : s.free p = some s') : Keeps L s (s'.setUsed p none) := by
  unfold ScanSys.free at hfree
  rcases h.tile_of_client (x := true) hused with ⟨k, rfl, hmod, hp⟩ | ⟨hmod, hp⟩
  · simp only [if_pos hmod] at hfree
    cases hfree
    obtain rfl : (s.header p).count = k := (h.header hp).2
    have hinv := h.putChunks (d := { s.header p with usage := usageFree })
      (({ s.setHeader p { s.header p with usage := usageFree } with
        freeChunks :=
          s.freeChunks.treeAdd Huge.nChunks ⟨4096 * p, (s.header p).count⟩ }).setUsed p none) hp
      (by simp) rfl rfl ⟨show usageFree ≠ usageArena by decide, rfl⟩ rfl rfl rfl
    exact ⟨p, _, hinv.effect (Layout.touches_set (by simp)) rfl rfl rfl, by simp [hp]⟩
  · have husage : (s.header p).usage = usageBlock := (h.header hp).1
    have hcount := (h.header hp).2
    have hbounds := h.block_bounds hp
    have hlen : (s.header p).count % 2 ^ 16 = n := by omega
    simp only [if_neg hmod, husage, hlen, if_true] at hfree
    split at hfree
    case isFalse => cases hfree
    case isTrue harena =>
      cases hfree
      have hinv := h.putPages (d := { s.header p with usage := usageFree })
        (((s.setHeader p { s.header p with usage := usageFree }).addFree (s.header p).arenaId
          ⟨4096 * p, n, (s.header p).arenaId⟩).setUsed p none) hp (by simp) harena rfl rfl ⟨rfl, hcount⟩
        rfl rfl rfl
      exact ⟨p, _, hinv.effect (Layout.touches_set (by simp)) rfl rfl rfl, by simp [hp]⟩

/-- A write of the client reaches no header. -/
theorem PageInv.write (h : PageInv L s) {x : PageUse} {d : PageHeader} (hused : s.used q = some x)
    (hlt : q < p) (hlt' : p < q + x.nPages) : Keeps L s (s.setHeader p d) := by
  obtain ⟨t, ht, huse⟩ := h.tile_of_used hused
  have hlen := (Tile.use_eq_some huse).1
  have hnone : L p = none := h.ok.none_inside ht hlt (by omega)
  have hheader : ∀ {x v}, L x = some v → HeaderFor ((s.setHeader p d).header x) x v := by
    intro x v hx
    have hne : x ≠ p := by
      rintro rfl
      rw [hnone] at hx
      cases hx
    show HeaderFor (Function.update s.header p d x) x v
    rw [Function.update_of_ne hne]
    exact h.header hx
  refine ⟨p, L, ⟨⟨h.ok, h.le, hheader, h.pages, h.chunks, h.used, h.arenas⟩,
    ⟨fun _ hx => hx, fun hx => ⟨_, hx, id⟩⟩, rfl, rfl, le_rfl, Or.inl rfl⟩, by simp [hnone]⟩

end

end NvmMalloc
