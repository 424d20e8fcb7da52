import NvmMalloc.BackgroundCalls
import NvmMalloc.InitSpec

/-!
# The recovery thread among the calls: where a page run can be

Reference: `src/nvm_malloc.c` (`nvm_recovery_thread`).

The thread is always at the first page of a tile, whatever the calls do meanwhile: tiles are only
cut, and a header that is read again tells the length of what is left.  What it may get wrong is
whose tile it is: a header with usage FREE is that of a tile nobody owns, of a node of a tree, or of
a reserved block. `pages_once` shows that nothing else can go wrong, and `reserved_block_in_tree`
that this can. -/

namespace NvmMalloc

open Interleaving

section

variable {L L' : Layout} {s s' : ScanSys} {p n : ℕ} {t : Tile}

/-! ## The recovery thread stays at tiles -/

/-- The end of the heap, or the first page of a tile. -/
def Starts (L : Layout) (c p : ℕ) : Prop := p = 1024 * c ∨ ∃ t, L p = some t

/-- Where the recovery thread is in a heap of `c` chunks: always at a tile, and if it is about to insert
one, then one that nobody owns. -/
def WalkAt (L : Layout) (c : ℕ) : WalkPc → Prop
  | .chunk i => Starts L c (1024 * i)
  | .skip i => ∃ t, L (1024 * i) = some t ∧ t ≠ .arena
  | .page i j => 1 ≤ j ∧ j ≤ 1024 ∧ Starts L c (1024 * i + j)
  | .found i j => 1 ≤ j ∧ j < 1024 ∧ ∃ n, L (1024 * i + j) = some (.block n .held)
  | .advance i j => 1 ≤ j ∧ j < 1024 ∧ ∃ t, L (1024 * i + j) = some t
  | .done => True

/-- Headers, trees and account agree with a layout in which the recovery thread is at a tile. -/
structure ScanInv (s : ScanSys) : Prop where
  agree : ∃ L, PageInv L s ∧ WalkAt L s.nextChunk s.pc
  le : s.nChunks ≤ s.nextChunk

/-- The tile behind a tile, or the end of the heap. -/
theorem PageInv.starts_next (h : PageInv L s) (hp : L p = some t) :
    Starts L s.nextChunk (p + t.len) := by
  have hle := h.ok.add_len_le hp
  rcases Nat.lt_or_ge (p + t.len) (1024 * s.nextChunk) with hlt | hge
  · exact Or.inr (h.ok.next hp hlt)
  · exact Or.inl (by omega)

/-- A call does not take the recovery thread off its tile. -/
theorem ScanInv.call (h : ScanInv s) (hkeeps : ∀ L, PageInv L s → Keeps L s s') : ScanInv s' := by
  obtain ⟨L, hinv, hat⟩ := h.agree
  obtain ⟨p, L', heff, hheld⟩ := hkeeps L hinv
  have hstarts : ∀ {x}, Starts L s.nextChunk x → Starts L' s'.nextChunk x := by
    rintro x (rfl | ⟨t, ht⟩)
    · rcases heff.next with heq | hnew
      · rw [heq]
        exact Or.inl rfl
      · exact Or.inr hnew
    · obtain ⟨u, hu, -⟩ := heff.touches.exists_tile ht
      exact Or.inr ⟨u, hu⟩
  refine ⟨⟨L', heff.inv, ?_⟩, ?_⟩
  · rw [heff.pc]
    cases hpc : s.pc with
    | chunk i =>
      rw [hpc] at hat
      exact hstarts hat
    | skip i =>
      rw [hpc] at hat
      obtain ⟨t, ht, hne⟩ := hat
      obtain ⟨u, hu, hua⟩ := heff.touches.exists_tile ht
      exact ⟨u, hu, hua hne⟩
    | page i j =>
      rw [hpc] at hat
      exact ⟨hat.1, hat.2.1, hstarts hat.2.2⟩
    | found i j =>
      rw [hpc] at hat
      obtain ⟨hj, hj', n, hn⟩ := hat
      have hne : 1024 * i + j ≠ p := by
        rintro rfl
        exact hheld n hn
      exact ⟨hj, hj', n, heff.touches.rest hne hn⟩
    | advance i j =>
      rw [hpc] at hat
      obtain ⟨hj, hj', t, ht⟩ := hat
      obtain ⟨u, hu, -⟩ := heff.touches.exists_tile ht
      exact ⟨hj, hj', u, hu⟩
    | done => trivial
  · rw [heff.nChunks]
    exact h.le.trans heff.le

/-- The recovery thread moves, and nothing else happens. -/
theorem ScanInv.move {pc : WalkPc} (h : ScanInv s)
    (hat : ∀ L, PageInv L s → WalkAt L s.nextChunk s.pc → WalkAt L s.nextChunk pc) :
    ScanInv { s with pc := pc } := by
  obtain ⟨L, hinv, hold⟩ := h.agree
  exact ⟨⟨L, ⟨hinv.ok, hinv.le, hinv.header, hinv.pages, hinv.chunks, hinv.used, hinv.arenas⟩,
    hat L hinv hold⟩, h.le⟩

/-- A header at a chunk boundary is that of an arena chunk, or tells how many chunks to skip. -/
theorem PageInv.chunk_header {i : ℕ} (h : PageInv L s) (hp : L (1024 * i) = some t) (hne : t ≠ .arena) :
    (s.header (1024 * i)).count = 0 ∨ 1024 * (s.header (1024 * i)).count = t.len := by
  have hheader := h.header hp
  have hfits := h.ok.fits hp
  cases t with
  | arena => exact absurd rfl hne
  | huge n o => exact Or.inr (by rw [hheader.2, Tile.len_huge])
  | block n o => exact absurd (Nat.mul_mod_right 1024 i) hfits.1
  | run k => exact absurd (Nat.mul_mod_right 1024 i) hfits
  | stuck n =>
    exact Or.inl (hheader.stuck_chunk (Nat.mul_mod_right 1024 i)).2

/-- A header at a chunk boundary with usage ARENA is that of an arena chunk. -/
theorem PageInv.arena_of_usage {i : ℕ} (h : PageInv L s) (hp : L (1024 * i) = some t)
    (husage : (s.header (1024 * i)).usage = usageArena) : t = .arena := by
  have hheader := h.header hp
  have hfits := h.ok.fits hp
  cases t with
  | arena => rfl
  | huge n o => exact absurd husage hheader.1
  | block n o => exact absurd (Nat.mul_mod_right 1024 i) hfits.1
  | run k => exact absurd (Nat.mul_mod_right 1024 i) hfits
  | stuck n => exact absurd husage (hheader.stuck_chunk (Nat.mul_mod_right 1024 i)).1

/-- A header inside a chunk tells how many pages to skip, which lead to the end of the chunk at most. -/
theorem PageInv.page_header {i j : ℕ} (h : PageInv L s) (hj : 1 ≤ j) (hj' : j < 1024)
    (hp : L (1024 * i + j) = some t) :
    (s.header (1024 * i + j)).count = 0 ∨
      (s.header (1024 * i + j)).count = t.len ∧ j + t.len ≤ 1024 := by
  have hheader := h.header hp
  have hfits := h.ok.fits hp
  have hmod : (1024 * i + j) % 1024 = j := by omega
  cases t with
  | arena => exact absurd (show _ % 1024 = 0 from hfits) (by omega)
  | huge n o => exact absurd (show _ % 1024 = 0 from hfits) (by omega)
  | block n o =>
    refine Or.inr ⟨hheader.2, ?_⟩
    have hchunk := hfits.2
    rwa [hmod] at hchunk
  | run k => exact Or.inl hheader.2
  | stuck n =>
    rcases (hheader.stuck_page (by omega)).2 with hzero | ⟨-, hcount, hchunk⟩
    · exact Or.inl hzero
    · exact Or.inr ⟨hcount, by rwa [hmod] at hchunk⟩

/-- An unclaimed page run with usage FREE is a tile that nobody owns. -/
theorem PageInv.held_of_unclaimed {i j : ℕ} (h : PageInv L s) (hj : 1 ≤ j) (hj' : j < 1024)
    (hp : L (1024 * i + j) = some t) (husage : (s.header (1024 * i + j)).usage = usageFree)
    (hfree : s.Unclaimed (1024 * i + j)) : ∃ n, t = .block n .held := by
  have hheader := h.header hp
  have hfits := h.ok.fits hp
  have hmod : (1024 * i + j) % 1024 = j := by omega
  obtain ⟨hcount, htrees, hnone⟩ := hfree
  rw [h.used, hp, Option.bind_some] at hnone
  cases t with
  | arena => exact absurd (show _ % 1024 = 0 from hfits) (by omega)
  | huge n o => exact absurd (show _ % 1024 = 0 from hfits) (by omega)
  | block n o =>
    cases o with
    | pool a =>
      -- then its node is in the tree of `a`
      have hmem : (⟨4096 * (1024 * i + j), n, a⟩ : ArenaBlock) ∈ (s.trees a).toList :=
        ((h.pages a).mem _).mpr ⟨_, hp, rfl, rfl⟩
      exact absurd rfl (htrees _ (PageInv.mem_freePageruns.mpr ⟨a, h.arenas hp, hmem⟩))
    | held => exact ⟨n, rfl⟩
    | user b => cases hnone
  | run k => cases hnone
  | stuck n =>
    rcases (hheader.stuck_page (by omega)).2 with hzero | ⟨hbad, -⟩
    · exact absurd hzero hcount
    · exact absurd husage hbad

/-- A header with usage RUN is that of a run. -/
theorem PageInv.run_of_usage {i j : ℕ} (h : PageInv L s) (hj : 1 ≤ j) (hj' : j < 1024)
    (hp : L (1024 * i + j) = some t) (husage : (s.header (1024 * i + j)).usage = usageRun) :
    t.len = 1 := by
  have hheader := h.header hp
  have hfits := h.ok.fits hp
  have hmod : (1024 * i + j) % 1024 = j := by omega
  cases t with
  | arena => rfl
  | huge n o => exact absurd (show _ % 1024 = 0 from hfits) (by omega)
  | block n o =>
    have hbad := hheader.1
    rw [husage] at hbad
    rcases o with a | - | _ | _ <;> exact absurd hbad (by simp [blockUsage])
  | run k => rfl
  | stuck n =>
    exact absurd husage (hheader.stuck_page (by omega)).1

/-- The recovery thread reads the header of a chunk. -/
theorem ScanInv.readChunk {i : ℕ} (h : ScanInv s) (hpc : s.pc = .chunk i) (hi : i < s.nChunks) :
    ((s.header (1024 * i)).usage = usageArena → ScanInv { s with pc := .page i 1 }) ∧
      ((s.header (1024 * i)).usage ≠ usageArena → ScanInv { s with pc := .skip i }) := by
  have htile : ∀ {L}, WalkAt L s.nextChunk s.pc → ∃ t, L (1024 * i) = some t := by
    intro L hat
    rw [hpc] at hat
    rcases hat with hend | ht
    · have hle := h.le
      omega
    · exact ht
  refine ⟨fun husage => h.move fun L hinv hat => ?_, fun husage => h.move fun L hinv hat => ?_⟩
  · obtain ⟨t, ht⟩ := htile hat
    obtain rfl := hinv.arena_of_usage ht husage
    exact ⟨le_rfl, by decide, hinv.starts_next ht⟩
  · obtain ⟨t, ht⟩ := htile hat
    refine ⟨t, ht, ?_⟩
    rintro rfl
    exact husage (hinv.header ht)

/-- The recovery thread reads the usage bits of a header inside a chunk. -/
theorem ScanInv.readPage {i j : ℕ} (h : ScanInv s) (hpc : s.pc = .page i j) (hj' : j < 1024)
    (hguard : (s.header (1024 * i + j)).usage = usageFree → s.Unclaimed (1024 * i + j)) :
    ((s.header (1024 * i + j)).usage = usageFree → ScanInv { s with pc := .found i j }) ∧
      ((s.header (1024 * i + j)).usage = usageRun → ScanInv { s with pc := .page i (j + 1) }) ∧
      ScanInv { s with pc := .advance i j } := by
  have htile : ∀ {L}, WalkAt L s.nextChunk s.pc → 1 ≤ j ∧ ∃ t, L (1024 * i + j) = some t := by
    intro L hat
    rw [hpc] at hat
    obtain ⟨hj, -, hend | ht⟩ := hat
    · omega
    · exact ⟨hj, ht⟩
  refine ⟨fun husage => h.move fun L hinv hat => ?_, fun husage => h.move fun L hinv hat => ?_,
    h.move fun L hinv hat => ?_⟩ <;> obtain ⟨hj, t, ht⟩ := htile hat
  · obtain ⟨n, rfl⟩ := hinv.held_of_unclaimed hj hj' ht husage (hguard husage)
    exact ⟨hj, hj', n, ht⟩
  · have hnext := hinv.starts_next ht
    rw [hinv.run_of_usage hj hj' ht husage] at hnext
    exact ⟨by omega, hj', hnext⟩
  · exact ⟨hj, hj', t, ht⟩

/-- The recovery thread puts a page run that nobody owns into the tree of its arena. -/
theorem ScanInv.insert {i j : ℕ} (h : ScanInv s) (hpc : s.pc = .found i j)
    (hins : s.insert (1024 * i + j) = some s') : ScanInv { s' with pc := .advance i j } := by
  obtain ⟨L, hinv, hat⟩ := h.agree
  rw [hpc] at hat
  obtain ⟨hj, hj', n, hn⟩ := hat
  have hlen : (s.header (1024 * i + j)).count % 2 ^ 16 = n := by
    have hcount := (hinv.header hn).2
    have hbounds := hinv.block_bounds hn
    omega
  simp only [ScanSys.insert, hlen] at hins
  split at hins
  case isFalse => cases hins
  case isTrue harena =>
    cases hins
    have hput := (hinv.putBack harena hn).inv
    exact ⟨⟨_, ⟨hput.ok, hput.le, hput.header, hput.pages, hput.chunks, hput.used, hput.arenas⟩,
      hj, hj', _, Layout.set_self⟩, h.le⟩

/-- The recovery thread reads `n_pages` once more and goes on. -/
theorem ScanInv.advance {i j : ℕ} (h : ScanInv s) (hpc : s.pc = .advance i j) :
    ScanInv { s with pc := .page i (j + (s.header (1024 * i + j)).count) } := by
  refine h.move fun L hinv hat => ?_
  rw [hpc] at hat
  obtain ⟨hj, hj', t, ht⟩ := hat
  rcases hinv.page_header hj hj' ht with hzero | ⟨hlen, hchunk⟩
  · rw [hzero]
    exact ⟨hj, hj'.le, Or.inr ⟨t, ht⟩⟩
  · rw [hlen]
    refine ⟨by omega, hchunk, ?_⟩
    rw [← Nat.add_assoc]
    exact hinv.starts_next ht

/-- The recovery thread skips a huge region. -/
theorem ScanInv.skip {i : ℕ} (h : ScanInv s) (hpc : s.pc = .skip i) :
    ScanInv { s with pc := .chunk (i + (s.header (1024 * i)).count) } := by
  refine h.move fun L hinv hat => ?_
  rw [hpc] at hat
  obtain ⟨t, ht, hne⟩ := hat
  show Starts L s.nextChunk (1024 * (i + (s.header (1024 * i)).count))
  rcases hinv.chunk_header ht hne with hzero | hlen
  · rw [hzero]
    exact Or.inr ⟨t, ht⟩
  · rw [Nat.mul_add, hlen]
    exact hinv.starts_next ht

/-- A step of the recovery thread keeps the invariant if it reads an unclaimed page run. -/
theorem ScanInv.scan (h : ScanInv s) (hguard : ReadsUnclaimed s .scan) (hscan : s.scan = some s') :
    ScanInv s' := by
  unfold ScanSys.scan at hscan
  unfold ReadsUnclaimed at hguard
  cases hpc : s.pc with
  | chunk i =>
    rw [hpc] at hscan
    simp only at hscan
    split at hscan
    case isFalse =>
      cases hscan
      exact h.move fun L _ _ => trivial
    case isTrue hi =>
      split at hscan
      case isTrue husage =>
        cases hscan
        exact (h.readChunk hpc hi).1 husage
      case isFalse husage =>
        cases hscan
        exact (h.readChunk hpc hi).2 husage
  | skip i =>
    rw [hpc] at hscan
    cases hscan
    exact h.skip hpc
  | page i j =>
    rw [hpc] at hscan hguard
    simp only at hscan hguard
    split at hscan
    case isFalse hj' =>
      cases hscan
      refine h.move fun L _ hat => ?_
      rw [hpc] at hat
      obtain ⟨-, hle, hstarts⟩ := hat
      obtain rfl : j = 1024 := by omega
      exact hstarts
    case isTrue hj' =>
      obtain ⟨hfree, hrun, hskip⟩ := h.readPage hpc hj' (hguard hj')
      split at hscan
      case isTrue husage =>
        cases hscan
        exact hfree husage
      case isFalse =>
        split at hscan
        case isTrue husage =>
          cases hscan
          exact hrun husage
        case isFalse =>
          cases hscan
          exact hskip
  | found i j =>
    rw [hpc] at hscan
    obtain ⟨s₁, hins, rfl⟩ := Option.map_eq_some_iff.mp hscan
    exact h.insert hpc hins
  | advance i j =>
    rw [hpc] at hscan
    cases hscan
    exact h.advance hpc
  | done =>
    rw [hpc] at hscan
    cases hscan

/-- Every action keeps the invariant if the recovery thread reads unclaimed page runs only. -/
theorem ScanInv.step {act : ScanAction} (h : ScanInv s) (hguard : ReadsUnclaimed s act)
    (hstep : backgroundStep s act = some s') : ScanInv s' := by
  cases act with
  | scan => exact h.scan hguard hstep
  | reserve a nBytes room =>
    simp only [backgroundStep] at hstep
    split at hstep
    case isFalse => cases hstep
    case isTrue hvalid =>
      by_cases hsame : s' = s
      · rwa [hsame]
      · exact h.call fun L hinv =>
          (hinv.reserve hvalid.1 hvalid.2.1 hvalid.2.2 hstep).resolve_left hsame
  | activate p =>
    simp only [backgroundStep] at hstep
    split at hstep
    · rename_i n hused
      cases hstep
      exact h.call fun L hinv => hinv.activate hused
    · cases hstep
      exact h
    · cases hstep
  | free p =>
    simp only [backgroundStep] at hstep
    split at hstep
    · rename_i n hused
      obtain ⟨s₁, hfree, rfl⟩ := Option.map_eq_some_iff.mp hstep
      exact h.call fun L hinv => hinv.free hused hfree
    · cases hstep
      exact h
    · cases hstep
  | write q p d =>
    simp only [backgroundStep] at hstep
    split at hstep
    · rename_i x hused
      split at hstep
      case isFalse => cases hstep
      case isTrue hlt =>
        cases hstep
        exact h.call fun L hinv => hinv.write hused hlt.1 hlt.2
    · cases hstep

/-- At the start the recovery thread is at the first tile. -/
theorem ScanSys.Init.scanInv (h : s.Init) : ScanInv s := by
  obtain ⟨L, hL⟩ := h.agree
  refine ⟨⟨L, hL, ?_⟩, h.nChunks.le⟩
  rw [h.pc]
  rcases Nat.eq_zero_or_pos s.nextChunk with hzero | hpos
  · exact Or.inl (by rw [hzero])
  · exact Or.inr (hL.ok.first hpos)

end

/-- **The recovery thread duplicates no page run as long as it reads unclaimed headers.** -/
theorem pages_once (s : ScanSys) (hs : Runs ScanSys.Init backgroundStep ReadsUnclaimed s) :
    PagesOnce s := by
  have hinv : ScanInv s :=
    hs.invariant (fun _ hinit => hinit.scanInv) fun _ _ _ h hguard hstep => h.step hguard hstep
  obtain ⟨L, hL, -⟩ := hinv.agree
  exact hL.pagesOnce

/-- The heap of `nvm_initialize_empty`, opened again: one free block in every arena chunk, empty
trees. -/
def reopened : ScanSys where
  header p :=
    if p % 1024 = 0 then ⟨usageArena, 0, 0⟩
    else if p % 1024 = 1 then ⟨usageFree, 1023, p / 1024⟩
    else ⟨0, 0, 0⟩
  trees _ := .nil
  freeChunks := .nil
  nextChunk := 20
  used _ := none
  nChunks := 20
  pc := .chunk 0

/-- The layout of the heap of `nvm_initialize_empty`, with nobody owning its blocks. -/
def reopenedLayout : Layout := fun p =>
  (initialLayout 20 p).map fun
    | .block n _ => .block n .held
    | t => t

theorem reopenedLayout_cases {p : ℕ} {t : Tile} (h : reopenedLayout p = some t) :
    ∃ c < 20, (p = 1024 * c ∧ t = .arena) ∨ (p = 1024 * c + 1 ∧ t = .block 1023 .held) := by
  obtain ⟨u, hu, rfl⟩ := Option.map_eq_some_iff.mp h
  obtain ⟨c, hc, ⟨rfl, rfl⟩ | ⟨rfl, rfl⟩⟩ := initialLayout_cases hu
  · exact ⟨c, hc, Or.inl ⟨rfl, rfl⟩⟩
  · exact ⟨c, hc, Or.inr ⟨rfl, rfl⟩⟩

theorem reopened_init : reopened.Init := by
  refine ⟨rfl, rfl, reopenedLayout, ⟨⟨?_, fun {p t} hp => ?_⟩,
    by decide, fun {p t} hp => ?_, fun a => ?_, ?_, fun p => ?_, fun {p n a} hp => ?_⟩⟩
  · have hlen : (fun p => (reopenedLayout p).map Tile.len) =
        fun p => (initialLayout 20 p).map Tile.len := by
      funext p
      rw [reopenedLayout, Option.map_map]
      congr 1
      funext t
      cases t <;> rfl
    rw [hlen]
    exact (initialLayout_ok 20).tiling
  · obtain ⟨c, -, ⟨rfl, rfl⟩ | ⟨rfl, rfl⟩⟩ := reopenedLayout_cases hp
    · exact Nat.mul_mod_right 1024 c
    · exact ⟨by omega, by omega⟩
  · obtain ⟨c, -, ⟨rfl, rfl⟩ | ⟨rfl, rfl⟩⟩ := reopenedLayout_cases hp
    · simp only [HeaderFor, reopened]
      rw [if_pos (Nat.mul_mod_right 1024 c)]
    · simp only [HeaderFor, reopened]
      rw [if_neg (by omega), if_pos (by omega)]
      exact ⟨rfl, rfl⟩
  · refine ⟨List.nodup_nil, fun b => ⟨fun hb => absurd hb (List.not_mem_nil), ?_⟩⟩
    rintro ⟨p, hp, -⟩
    obtain ⟨c, -, ⟨-, hbad⟩ | ⟨-, hbad⟩⟩ := reopenedLayout_cases hp <;> simp at hbad
  · refine ⟨List.nodup_nil, fun x => ⟨fun hx => absurd hx (List.not_mem_nil), ?_⟩⟩
    rintro ⟨p, hp, -⟩
    obtain ⟨c, -, ⟨-, hbad⟩ | ⟨-, hbad⟩⟩ := reopenedLayout_cases hp <;> simp at hbad
  · show none = _
    cases hp : reopenedLayout p with
    | none => rfl
    | some t => obtain ⟨c, -, ⟨-, rfl⟩ | ⟨-, rfl⟩⟩ := reopenedLayout_cases hp <;> rfl
  · obtain ⟨c, -, ⟨-, hbad⟩ | ⟨-, hbad⟩⟩ := reopenedLayout_cases hp <;> simp at hbad

/-- The recovery thread passes the first chunk, then the client takes two pages from it, activates and
frees them while the thread goes on. -/
def behindTheScan : List ScanAction :=
  [.scan, .scan, .scan, .scan, .reserve 0 5000 false, .scan, .activate 1022, .scan, .reserve 0 100 false,
    .free 1022, .scan, .scan, .reserve 1 5000 false]

/-- The pages that the client takes and gives back behind the recovery thread are used once. -/
theorem pages_once_behind_the_scan :
    ∃ s, Runs ScanSys.Init backgroundStep ReadsUnclaimed s ∧ s.freePageruns.length = 3 ∧
      s.used 2046 = some ⟨2, .reserved⟩ ∧ PagesOnce s := by
  have hstart : Runs ScanSys.Init backgroundStep ReadsUnclaimed reopened := .start reopened_init
  have hrun : (runActions (guarded backgroundStep ReadsUnclaimed) reopened behindTheScan).any (fun s =>
      decide (s.freePageruns.length = 3 ∧ s.used 2046 = some ⟨2, .reserved⟩)) = true := by
    decide +kernel
  obtain ⟨s, hs, htest⟩ := hstart.exists_of_guarded hrun
  rw [decide_eq_true_eq] at htest
  exact ⟨s, hs, htest.1, htest.2, pages_once s hs⟩

/-- The recovery thread puts the block of the first chunk into the tree; before it reads `n_pages` again,
the client takes the last two pages. -/
def splitUnderTheScan : List ScanAction :=
  [.scan, .scan, .scan, .reserve 0 5000 false, .scan, .scan, .scan]

/-- **The recovery thread puts a reserved block into a tree.** -/
theorem reserved_block_in_tree :
    ∃ s, Runs ScanSys.Init backgroundStep (fun _ _ => True) s ∧ s.used 1022 = some ⟨2, .reserved⟩ ∧
      (⟨4096 * 1022, 2, 0⟩ : ArenaBlock) ∈ s.freePageruns ∧ ¬ PagesOnce s := by
  have hstart : Runs ScanSys.Init backgroundStep (fun _ _ => True) reopened := .start reopened_init
  have hrun : (runActions backgroundStep reopened splitUnderTheScan).any (fun s =>
      decide (s.used 1022 = some ⟨2, .reserved⟩ ∧
        (⟨4096 * 1022, 2, 0⟩ : ArenaBlock) ∈ s.freePageruns)) = true := by
    decide +kernel
  obtain ⟨s, hs, htest⟩ := hstart.exists_of_actions hrun
  rw [decide_eq_true_eq] at htest
  refine ⟨s, hs, htest.1, htest.2, fun hbad => ?_⟩
  have hapart := hbad.apart _ htest.2 1022 _ htest.1
  simp only [blockSize] at hapart
  omega

end NvmMalloc
