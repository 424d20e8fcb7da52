import NvmMalloc.GrowSpec
import Mathlib.Data.Fintype.Card

/-!
# Reservation

Reference: `src/arena.c` (`arena_allocate`, `arena_create_run`, `arena_create_block`),
`src/nvm_malloc.c` (`nvm_reserve`).

A reservation takes a page run or a huge region out of a pool, or grows the heap, splits off its tail
and hands the tail to the client.  The tail's header is written while it still lies in the body of the
tile that is split, so the store that shrinks the head is the only one that a crash can see.
-/

namespace NvmMalloc

open Memory CrashM

variable {L : Layout} {w : World} {live : List Region} {B : Blame} {p : ℕ} {t u : Tile}

/-! ## Taking a page run -/

/-- The page run that `arena_create_run` and `arena_create_block` start from. -/
theorem arenaTakeBlock_spec (h : HeapInv L w live) (a : ℕ) {n : ℕ} (hn : n ≤ 1023)
    (hgrow : blockUpperBound n (w.arenas a).freePageruns = none → B.grow) :
    Spec (arenaTakeBlock a n) (CrashOk B live)
      (fun b w' => ∃ L' p, b = ⟨4096 * p, b.nPages, a⟩ ∧ L' p = some (.block b.nPages .held) ∧
        n ≤ b.nPages ∧ HeapInv L' w' live ∧ PoolOnly w w' ∧ (L.Owned → L'.OwnedBut p) ∧
        (b.nPages = 1023 ∨ w'.nvm.log = w.nvm.log ∧
          blockUpperBound n (w.arenas a).freePageruns = some b) ∧
        Evolves (blockUpperBound n (w.arenas a).freePageruns = none → a = 0) L w.nvm.mem L'
          w'.nvm.mem ∧
        ((blockUpperBound n (w.arenas a).freePageruns = none → a = 0) → ArenaInv L w.nvm.mem →
          chunkArena (p / 1024) = a))
      (fun e => e = .exit) w := by
  unfold arenaTakeBlock
  rw [spec_bind, spec_get]
  cases hub : blockUpperBound n (w.arenas a).freePageruns with
  | none =>
    refine (arenaAddChunk_spec h (hgrow hub) a).imp ?_
    rintro _ w' ⟨L', p, rfl, hp, hinv, hsame, howned, hevolves, hchunk⟩
    exact ⟨L', p, rfl, hp, hn, hinv, hsame, howned, Or.inl rfl, hevolves.imp fun hzero => hzero rfl,
      fun hzero _ => hchunk (hzero rfl)⟩
  | some b =>
    have hle : n ≤ b.nPages := SearchTree.le_key_treeUpperBound (by simp) hub
    have hmem : b ∈ (w.arenas a).freePageruns.toList := by
      rcases SearchTree.treeUpperBound_mem hub with hmem | hnone
      · exact hmem
      · exact absurd hnone (by simp)
    obtain ⟨p, hp, hb, hinv⟩ := h.takePages hmem
    simp only [spec_bind, spec_assertThat, spec_modify, spec_pure]
    refine ⟨fun _ => ?_, fun hnot => absurd hle hnot⟩
    refine ⟨_, p, hb, Layout.set_self, hle, hinv, ⟨⟨rfl, rfl, rfl, fun _ _ => EqOn.refl _ _ _⟩,
      rfl, rfl, setTree_bin _ _ _⟩, fun ho => ho.hold, Or.inr ⟨rfl, trivial⟩, ?_, fun _ harenas => ?_⟩
    · exact .set h.nvm.ok hp .block (EqOff.refl _ _ _) fun _ ht => ht.block rfl (by simp)
    · exact ((harenas p _ hp).2 a rfl).symm

/-! ## New runs -/

/-- A run header as `arena_create_run` leaves it. -/
structure NewRun (m : Mem) (h run nBytes a : ℕ) : Prop where
  state : field m h stateF = usageRun + stateInitialized
  nBytes : field m h nBytesF = nBytes
  vdata : field m h vdataF = run
  arena : field m h runArenaIdF = a
  version : field m h versionF = 0
  on : OnZero m h runOn
  bits : ∀ i < 64, bitmapBit m h i = false

/-- Every VHeader has its own page. -/
theorem HeapInv.nVheaders_le (h : HeapInv L w live) : w.nVheaders ≤ 1024 * w.nvm.nextChunk := by
  choose f hf using fun k : Fin w.nVheaders => h.runs.tile k k.isLt
  have hlt : ∀ k, f k < 1024 * w.nvm.nextChunk := by
    intro k
    have hend := h.nvm.ok.add_len_le (hf k)
    rw [Tile.len_run] at hend
    omega
  have hinj : Function.Injective fun k => (⟨f k, hlt k⟩ : Fin (1024 * w.nvm.nextChunk)) := by
    intro k k' heq
    have hfk : f k = f k' := congrArg Fin.val heq
    have htile := (hf k).symm.trans (hfk ▸ hf k')
    rw [Option.some.injEq, Tile.run.injEq] at htile
    exact Fin.ext htile
  simpa using Fintype.card_le_of_injective _ hinj

theorem HeapInv.nVheaders_lt (h : HeapInv L w live) : w.nVheaders < 256 ^ 8 := by
  have hle := h.nVheaders_le
  have hchunks := h.nvm.le
  have hmax : maxNvmChunks = 25600 := by decide
  omega

section

variable {m : Mem} {q run nBytes a b : ℕ} {x : ArenaRun}

/-- The link area and the bitmap of a new run are clear. -/
theorem NewRun.of_zero {h : ℕ} (hstate : field m h stateF = usageRun + stateInitialized)
    (hbytes : field m h nBytesF = nBytes) (hvdata : field m h vdataF = run)
    (harena : field m h runArenaIdF = a) (hversion : field m h versionF = 0)
    (hz : ∀ x, h + 16 ≤ x → x < h + 56 → m x = 0) : NewRun m h run nBytes a where
  state := hstate
  nBytes := hbytes
  vdata := hvdata
  arena := harena
  version := hversion
  on k hk := hz _ (by simp only [runOn]; omega) (by simp only [runOn]; omega)
  bits i hi := by
    have hzero : field m h (bitmapF (i / 8)) = 0 :=
      field_eq_zero fun x hx hx' => hz x (by simp only [bitmapF] at hx; omega)
        (by simp only [bitmapF] at hx'; omega)
    unfold bitmapBit
    rw [hzero, Nat.zero_testBit]

theorem NewRun.quiet (h : NewRun m (4096 * q) run nBytes a) (hsize : RunSize nBytes)
    (ha : a < initialArenas) (k : ℕ) : Quiet m q (.run k) :=
  ⟨⟨h.nBytes ▸ hsize, h.arena ▸ ha⟩, h.state, h.on⟩

/-- The VHeader that goes with a new run. -/
theorem NewRun.runOf (h : NewRun m (4096 * q) run nBytes a) (hb : nBytes = 64 * (b + 1))
    {H : ℕ → ArenaRun} (hH : H run = freshRun a b nBytes (4096 * q) x) : RunOf m H q run where
  nvmRun := by rw [hH]; rfl
  elemSize := by rw [hH, h.nBytes]; rfl
  bin := by
    rw [hH, h.arena]
    simp only [freshRun, Prod.mk.injEq, true_and]
    omega
  nMax := by rw [hH]; rfl
  vdata := h.vdata

theorem NewRun.congr {m' : Mem} (h : NewRun m (4096 * q) run nBytes a)
    (heq : EqOn m m' (4096 * q) 64) : NewRun m' (4096 * q) run nBytes a where
  state := by rw [field_eqOn heq (by decide)]; exact h.state
  nBytes := by rw [field_eqOn heq (by decide)]; exact h.nBytes
  vdata := by rw [field_eqOn heq (by decide)]; exact h.vdata
  arena := by rw [field_eqOn heq (by decide)]; exact h.arena
  version := by rw [field_eqOn heq (by decide)]; exact h.version
  on := h.on.congr heq (by decide)
  bits i hi := by rw [bitmapBit_eqOn heq hi]; exact h.bits i hi

end

/-- The tail page of a page run held by the call becomes a run. -/
theorem HeapInv.splitRun (h : HeapInv L w live) {m : Mem} {H : ℕ → ArenaRun} {n q nBytes a b : ℕ}
    {x : ArenaRun} (hp : L p = some (.block n .held)) (hn : 1 < n) (hq : q = p + n - 1)
    (heq : EqOff w.nvm.mem m (4096 * p) 64) (hquiet : Quiet m p (.block (n - 1) .held))
    (hnew : NewRun w.nvm.mem (4096 * q) w.nVheaders nBytes a) (hb : b < 31)
    (hsize : nBytes = 64 * (b + 1)) (ha : a < initialArenas)
    (hH : H = Function.update w.vheaders w.nVheaders (freshRun a b nBytes (4096 * q) x)) :
    HeapInv ((L.set p (.block (n - 1) .held)).set q (.run w.nVheaders))
      { w.setMem m with vheaders := H, nVheaders := w.nVheaders + 1 } live := by
  subst hq
  have hfits : (Tile.block n .held).Fits p := h.nvm.ok.fits hp
  have hnone : L (p + n - 1) = none := h.nvm.ok.none_inside hp (by omega) (by rw [Tile.len_block]; omega)
  have hnew' : NewRun m (4096 * (p + n - 1)) w.nVheaders nBytes a :=
    hnew.congr (heq.eqOn (Or.inr (by omega)))
  have hHk : H w.nVheaders = freshRun a b nBytes (4096 * (p + n - 1)) x := by
    rw [hH, Function.update_self]
  have hnvm := h.nvm.split (u := .block (n - 1) .held) (v := .run w.nVheaders) hp Nat.one_pos hn heq
    rfl rfl ⟨hfits.1, by have := hfits.2; omega⟩
    (by have := hfits.2; simp only [Tile.Fits, Tile.len_block]; omega) hquiet
    (hnew'.quiet ⟨b, hb, hsize⟩ ha _) (by simp) (by simp) (fun _ _ => hnew'.version) (by simp) (by simp)
    (fun _ hx => hx)
  refine h.addRun hnvm (fun {v} hv hrun y => ?_) (fun y k => ?_) (fun y k hy => ?_) (fun k hk => ?_)
    (hnew'.runOf hsize hHk) (fun i => by rw [hHk]; rfl) hnew'.bits
  · exact Layout.split_eq_some_iff hp hnone (by rintro rfl; exact hv trivial)
      (by rintro rfl; exact hv trivial) (hrun _).symm
  · constructor
    · intro hy
      rcases Layout.set_eq_some hy with ⟨rfl, hk⟩ | ⟨-, hy⟩
      · exact Or.inl ⟨rfl, Tile.run.inj hk⟩
      · rcases Layout.set_eq_some hy with ⟨-, hbad⟩ | ⟨-, hy⟩
        · exact absurd hbad (by simp)
        · exact Or.inr hy
    · rintro (⟨rfl, rfl⟩ | hy)
      · exact Layout.set_self
      · have hyq : y ≠ p + n - 1 := fun hyq => by rw [hyq, hnone] at hy; exact absurd hy (by simp)
        have hyp : y ≠ p := fun hyp => by rw [hyp, hp] at hy; exact absurd hy (by simp)
        rwa [Layout.set_of_ne hyq, Layout.set_of_ne hyp]
  · exact h.nvm.ok.eqOn_header heq hp hy fun hyp => by
      rw [hyp, hp] at hy
      exact absurd hy (by simp)
  · rw [hH, Function.update_of_ne hk]

/-- A single page held by the call becomes a run. -/
theorem HeapInv.convertRun (h : HeapInv L w live) {m : Mem} {H : ℕ → ArenaRun} {nBytes a b : ℕ}
    {x : ArenaRun} (hp : L p = some (.block 1 .held)) (heq : EqOff w.nvm.mem m (4096 * p) 64)
    (hnew : NewRun m (4096 * p) w.nVheaders nBytes a) (hb : b < 31) (hsize : nBytes = 64 * (b + 1))
    (ha : a < initialArenas)
    (hH : H = Function.update w.vheaders w.nVheaders (freshRun a b nBytes (4096 * p) x)) :
    HeapInv (L.set p (.run w.nVheaders))
      { w.setMem m with vheaders := H, nVheaders := w.nVheaders + 1 } live := by
  have hfits : (Tile.block 1 .held).Fits p := h.nvm.ok.fits hp
  have hHk : H w.nVheaders = freshRun a b nBytes (4096 * p) x := by rw [hH, Function.update_self]
  have hnvm := h.nvm.setHeader (u := .run w.nVheaders) hp heq rfl hfits.1
    (hnew.quiet ⟨b, hb, hsize⟩ ha _) (by simp) (fun _ _ => hnew.version) (by simp)
    (fun y hy => by simp only [Names] at hy ⊢; omega)
  refine h.addRun hnvm (fun {v} hv hrun y => ?_) (fun y k => ?_) (fun y k hy => ?_) (fun k hk => ?_)
    (hnew.runOf hsize hHk) (fun i => by rw [hHk]; rfl) hnew.bits
  · exact Layout.set_eq_some_iff
      (by rw [hp]; simp only [ne_eq, Option.some.injEq]; rintro rfl; exact hv trivial) (hrun _).symm
  · constructor
    · intro hy
      rcases Layout.set_eq_some hy with ⟨rfl, hk⟩ | ⟨-, hy⟩
      · exact Or.inl ⟨rfl, Tile.run.inj hk⟩
      · exact Or.inr hy
    · rintro (⟨rfl, rfl⟩ | hy)
      · exact Layout.set_self
      · have hyp : y ≠ p := fun hyp => by rw [hyp, hp] at hy; exact absurd hy (by simp)
        rwa [Layout.set_of_ne hyp]
  · exact h.nvm.ok.eqOn_header heq hp hy fun hyp => by
      rw [hyp, hp] at hy
      exact absurd hy (by simp)
  · rw [hH, Function.update_of_ne hk]

/-! ## How a split lets the layout evolve -/

/-- A page run held by the call loses its tail to a tile of the same chunk.  The header of the tail was
written before, in the body of the page run. -/
theorem HeapInv.evolves_split {m₀ m : Mem} {C : Prop} {n k : ℕ} {v : Tile} (h : HeapInv L w live)
    (hp : L p = some (.block n .held)) (hk : 0 < k) (hkn : k < n)
    (hbody : Evolves C L m₀ L w.nvm.mem) (heq : EqOff w.nvm.mem m (4096 * p) 64)
    (hid : field m (4096 * p) blockArenaIdF = field w.nvm.mem (4096 * p) blockArenaIdF)
    (hv : (p + n - k) / 1024 = p / 1024 → C → ArenaTile m (p + n - k) v) :
    Evolves C L m₀ ((L.set p (.block (n - k) .held)).set (p + n - k) v) m := by
  have hnone : L (p + n - k) = none :=
    h.nvm.ok.none_inside hp (by omega) (by rw [Tile.len_block]; omega)
  have hhead : Evolves C L w.nvm.mem (L.set p (.block (n - k) .held)) m :=
    .set h.nvm.ok hp .block heq fun _ ht => ht.block hid (by simp)
  have hfits : (Tile.block n .held).Fits p := h.nvm.ok.fits hp
  have hchunk : (p + n - k) / 1024 = p / 1024 := by
    have hend := hfits.2
    omega
  refine (hbody.trans (fun hC _ => hC) hhead).trans (fun hC _ => hC) (.add ?_
    (fun _ _ _ => EqOn.refl _ _ _) fun hC _ => hv hchunk hC)
  rwa [Layout.set_of_ne (by omega)]

/-- The head of the split goes back to the pool of its arena. -/
theorem HeapInv.evolves_putPages {n a : ℕ} {q : ℕ} {v : Tile}
    (h : HeapInv ((L.set p (.block n .held)).set q v) w live) (hpq : p ≠ q) :
    Evolves (chunkArena (p / 1024) = a) ((L.set p (.block n .held)).set q v) w.nvm.mem
      (((L.set p (.block n .held)).set q v).set p (.block n (.pool a))) w.nvm.mem := by
  refine .set h.nvm.ok (t := .block n .held) ?_ .block (EqOff.refl _ _ _) fun hchunk ht =>
    ht.block rfl fun a' ha' => ?_
  · rw [Layout.set_of_ne hpq, Layout.set_self]
  · rw [hchunk, Owner.pool.inj ha']

/-! ## `arena_create_run` -/

@[simp] theorem spec_mallocRun {C : Nvm → Prop} {Q : ℕ → World → Prop} {E : Stop → Prop}
    {f : ArenaRun → ArenaRun} :
    Spec (mallocRun f) C Q E w ↔ Q w.nVheaders { w with
      vheaders := Function.update w.vheaders w.nVheaders (f (w.vheaders w.nVheaders))
      nVheaders := w.nVheaders + 1 } := by
  unfold mallocRun
  rw [spec_bind, spec_get, spec_bind, spec_modify, spec_pure]

/-- The new run of `arena_create_run`; `owned` is what has to hold before for every tile to have an
owner afterwards, `C` for the headers to name the arenas of their chunks. -/
def MadeRun (L : Layout) (w : World) (live : List Region) (owned C : Prop) (a b nBytes run : ℕ)
    (w' : World) : Prop :=
  ∃ L' q, run = w.nVheaders ∧ L' q = some (.run run) ∧ HeapInv L' w' live ∧ Untouched w w' ∧
    w'.vheaders = Function.update w.vheaders run
      (freshRun a b nBytes (4096 * q) (w.vheaders run)) ∧
    w'.nVheaders = w.nVheaders + 1 ∧ w'.bin = w.bin ∧ (owned → L'.Owned) ∧
    Evolves C L w.nvm.mem L' w'.nvm.mem

/-- Cutting a run off the tail of a page run. -/
theorem createRunAtEnd_spec (h : HeapInv L w live) {a b n nBytes : ℕ}
    (hp : L p = some (.block n .held)) (hn : 1 < n) (hb : b < 31) (hsize : nBytes = 64 * (b + 1))
    (ha : a < initialArenas) (hver : w.currentVersion = 0) :
    Spec (createRunAtEnd a b nBytes ⟨4096 * p, n, a⟩) (CrashOk B live)
      (MadeRun L w live (L.OwnedBut p) (chunkArena (p / 1024) = a) a b nBytes)
      (fun e => e = .exit) w := by
  have hq : 4096 * p + (n - 1) * blockSize = 4096 * (p + n - 1) := by
    simp only [blockSize]
    omega
  have hbody : L.Body (4096 * (p + n - 1)) 64 :=
    ⟨p, _, hp, by simp, by omega, by rw [Tile.len_block]; omega⟩
  have hC : ∀ m', EqOff w.nvm.mem m' (4096 * (p + n - 1)) 64 →
      CrashOk B live { w.nvm with mem := m' } :=
    fun m' heq => (h.body hbody heq).crashOk B
  unfold createRunAtEnd
  simp only [hq]
  rw [spec_bind, spec_mallocRun, spec_bind, spec_get]
  set w₁ : World := { w with
    vheaders := Function.update w.vheaders w.nVheaders
      (freshRun a b nBytes (4096 * (p + n - 1)) (w.vheaders w.nVheaders))
    nVheaders := w.nVheaders + 1 } with hw₁
  change Spec _ _ _ _ (w₁.setMem w.nvm.mem)
  refine spec_memset0_within (w := w₁) hC (EqOff.refl _ _ _) le_rfl le_rfl fun m₁ hm₁ heq₁ => ?_
  refine spec_storeField_within (w := w₁) hC heq₁ (by omega) (by simp only [stateF]; omega)
    fun m₂ hm₂ heq₂ => ?_
  refine spec_storeField_within (w := w₁) hC heq₂ (by omega) (by simp only [nBytesF]; omega)
    fun m₃ hm₃ heq₃ => ?_
  refine spec_storeField_within (w := w₁) hC heq₃ (by omega) (by simp only [vdataF]; omega)
    fun m₄ hm₄ heq₄ => ?_
  refine spec_storeField_within (w := w₁) hC heq₄ (by omega) (by simp only [bitIdxF]; omega)
    fun m₅ hm₅ heq₅ => ?_
  refine spec_storeField_within (w := w₁) hC heq₅ (by omega) (by simp only [runArenaIdF]; omega)
    fun m₆ hm₆ heq₆ => ?_
  refine spec_storeField_within (w := w₁) hC heq₆ (by omega) (by simp only [versionF]; omega)
    fun m₇ hm₇ heq₇ => ?_
  have hnew : NewRun m₇ (4096 * (p + n - 1)) w.nVheaders nBytes a := by
    refine NewRun.of_zero ?_ ?_ ?_ ?_ ?_ fun x hx hx' => ?_
    · simp (disch := decide) only [hm₇, hm₆, hm₅, hm₄, hm₃, hm₂, field_store_of_ne, field_store_self]
      rfl
    · simp (disch := decide) only [hm₇, hm₆, hm₅, hm₄, hm₃, field_store_of_ne, field_store_self]
      exact Nat.mod_eq_of_lt (by simp only [nBytesF]; omega)
    · simp (disch := decide) only [hm₇, hm₆, hm₅, hm₄, field_store_of_ne, field_store_self]
      exact Nat.mod_eq_of_lt h.nVheaders_lt
    · simp (disch := decide) only [hm₇, hm₆, field_store_of_ne, field_store_self]
      exact Nat.mod_eq_of_lt (by simp only [runArenaIdF]; simp only [initialArenas] at ha; omega)
    · rw [hm₇, field_store_self, hw₁, hver]
      rfl
    · have hx₁ : m₁ x = 0 := by
        rw [hm₁]
        exact fill_apply (by omega) (by simp only [headerSize]; omega)
      rw [hm₇, store_eqOff _ _ _ _ x (by simp only [versionF]; omega),
        hm₆, store_eqOff _ _ _ _ x (by simp only [runArenaIdF]; omega),
        hm₅, store_eqOff _ _ _ _ x (by simp only [bitIdxF]; omega),
        hm₄, store_eqOff _ _ _ _ x (by simp only [vdataF]; omega),
        hm₃, store_eqOff _ _ _ _ x (by simp only [nBytesF]; omega),
        hm₂, store_eqOff _ _ _ _ x (by simp only [stateF]; omega), hx₁]
  refine spec_persist_then (spec_storeField_then fun m₈ hm₈ => ?_)
  -- the store that shrinks the block is the one that creates the run
  have hbodyInv : HeapInv L (w.setMem m₇) live := h.body hbody heq₇
  have heq₈ : EqOff m₇ m₈ (4096 * p) 64 :=
    hm₈ ▸ (EqOff.refl _ _ _).store _ (by omega) (by simp only [nPagesF]; omega)
  have hquiet : Quiet m₇ p (.block n .held) := hbodyInv.nvm.quiet hp
  have hfits : (Tile.block n .held).Fits p := h.nvm.ok.fits hp
  have hquiet₈ : Quiet m₈ p (.block (n - 1) .held) := by
    obtain ⟨-, harena, hstate, -⟩ := hquiet
    refine ⟨?_, ?_, ?_, by simp⟩
    · rw [hm₈, field_store_self]
      have := hfits.2
      exact Nat.mod_eq_of_lt (by simp only [nPagesF]; omega)
    · rwa [hm₈, field_store_of_ne (by decide)]
    · rwa [hm₈, field_store_of_ne (by decide)]
  have hfin := hbodyInv.splitRun (x := w.vheaders w.nVheaders) hp hn rfl heq₈ hquiet₈ hnew hb hsize
    ha rfl
  refine ⟨hfin.crashOk B, spec_persist_then ?_⟩
  unfold addFreePagerun
  rw [spec_bind, spec_modify, spec_pure]
  have hpq : p ≠ p + n - 1 := by omega
  have hput := hfin.putPages (n := n - 1) a (by rw [Layout.set_of_ne hpq, Layout.set_self])
  have hpool : (Tile.block (n - 1) (.pool a)).Owned := ha
  have hrun : (((L.set p (.block (n - 1) .held)).set (p + n - 1) (.run w.nVheaders)).set p
      (.block (n - 1) (.pool a))) (p + n - 1) = some (.run w.nVheaders) := by
    rw [Layout.set_of_ne (Ne.symm hpq), Layout.set_self]
  refine ⟨_, p + n - 1, rfl, hrun, hput, ⟨rfl, rfl, rfl, ?_⟩, rfl, rfl, setTree_bin _ _ _,
    fun ho => (ho.split hpool).owned hrun trivial, ?_⟩
  · have heq : EqOff w.nvm.mem m₈ (4096 * p) (4096 * n) :=
      (heq₇.mono (by omega) (by omega)).trans (heq₈.mono le_rfl (by omega))
    exact h.nvm.table_eqOn hp (by simp) le_rfl (by rw [Tile.len_block]; omega) heq
  · have hcut : Evolves (chunkArena (p / 1024) = a) L w.nvm.mem
        ((L.set p (.block (n - 1) .held)).set (p + n - 1) (.run w.nVheaders)) m₈ := by
      refine hbodyInv.evolves_split hp Nat.one_pos hn (.body h.nvm.ok hbody heq₇) heq₈ ?_
        fun hsame hchunk => ?_
      · rw [hm₈, field_store_of_ne (by decide)]
        rfl
      · show field m₈ _ _ = _
        rw [field_eqOn (heq₈.eqOn (Or.inr (by omega))) (by decide), hnew.arena, hsame, hchunk]
    exact hcut.trans (fun hchunk _ => hchunk) (hfin.evolves_putPages hpq)

/-- A crash while a single held page is turned into a run. -/
theorem HeapInv.crashOk_held (h : HeapInv L w live) {m : Mem} (hp : L p = some (.block 1 .held))
    (heq : EqOff w.nvm.mem m (4096 * p) 64) (hu : u = .block 1 .held ∨ u = .stuck 1)
    (hhdr : HdrOk m p u)
    (hstate : field m (4096 * p) stateF = 0 ∨ field m (4096 * p) stateF = usageRun + stateInitialized ∧
      field m (4096 * p) versionF = 0) (hconv : B.Converts w.nvm (4096 * p + 64)) :
    CrashOk B live { w.nvm with mem := m } := by
  have hfits : (Tile.block 1 .held).Fits p := h.nvm.ok.fits hp
  refine h.crashOk_header hp heq ?_ ?_ hhdr ?_ (by simp) hstate (fun x hx => ?_) (fun _ hr => hr)
    (fun r hr _ hpage => absurd hpage (h.live.ptr_ne hp id r hr)) hconv ?_
  · rcases hu with rfl | rfl <;> rfl
  · rcases hu with rfl | rfl
    · exact hfits
    · trivial
  · rcases hu with rfl | rfl <;> simp
  · rcases hu with rfl | rfl
    · exact hx
    · exact ⟨hx, hfits.1⟩
  · rcases hu with rfl | rfl <;> simp

/-- Converting a page run of one page. -/
theorem convertToRun_spec (h : HeapInv L w live) {a b nBytes : ℕ} (hp : L p = some (.block 1 .held))
    (hb : b < 31) (hsize : nBytes = 64 * (b + 1)) (ha : a < initialArenas)
    (hver : w.currentVersion = 0) (hconv : B.Converts w.nvm (4096 * p + 64)) :
    Spec (convertToRun a b nBytes ⟨4096 * p, 1, a⟩) (CrashOk B live)
      (MadeRun L w live (L.OwnedBut p) (chunkArena (p / 1024) = a) a b nBytes)
      (fun e => e = .exit) w := by
  have hfits : (Tile.block 1 .held).Fits p := h.nvm.ok.fits hp
  obtain ⟨hpages, harena, -, -⟩ : Quiet w.nvm.mem p (.block 1 .held) := h.nvm.quiet hp
  have hstuck : ∀ m, field m (4096 * p) stateF = 0 → field m (4096 * p) nPagesF = 0 →
      HdrOk m p (.stuck 1) := by
    intro m hst hnp
    simp only [HdrOk, StuckHdr, if_neg hfits.1, hst, hnp]
    exact Or.inr ⟨by decide, trivial⟩
  unfold convertToRun
  simp only
  rw [spec_bind, spec_mallocRun, spec_bind, spec_get]
  set w₁ : World := { w with
    vheaders := Function.update w.vheaders w.nVheaders
      (freshRun a b nBytes (4096 * p) (w.vheaders w.nVheaders))
    nVheaders := w.nVheaders + 1 } with hw₁
  change Spec _ _ _ _ (w₁.setMem w.nvm.mem)
  refine spec_memset0_then (w := w₁) (fun j hj => ?_) fun m₁ hm₁ => ?_
  · -- the state byte goes first, the page count five bytes in
    simp only [headerSize] at hj
    have heq : EqOff w.nvm.mem (fill w.nvm.mem (4096 * p) (j + 1)) (4096 * p) 64 :=
      (EqOff.refl _ _ _).fill le_rfl (by omega)
    have hst : field (fill w.nvm.mem (4096 * p) (j + 1)) (4096 * p) stateF = 0 :=
      field_fill (by omega) (by simp only [stateF]; omega)
    by_cases hj4 : j + 1 ≤ 4
    · have hfill : ∀ f : NvmField, 4 ≤ f.off →
          field (fill w.nvm.mem (4096 * p) (j + 1)) (4096 * p) f = field w.nvm.mem (4096 * p) f :=
        fun f hf => field_fill_of_ne (o := 0) (Or.inr (by omega))
      refine h.crashOk_held hp heq (Or.inl rfl) ⟨?_, ?_, by rw [hst]; simp⟩ (Or.inl hst) hconv
      · rw [hfill nPagesF (by decide), hpages]
      · rw [hfill blockArenaIdF (by decide)]
        exact harena
    · refine h.crashOk_held hp heq (Or.inr rfl) (hstuck _ hst ?_) (Or.inl hst) hconv
      have hlt : load w.nvm.mem (4096 * p + 4) (3 + 1) < 256 := lt_of_eq_of_lt hpages (by decide)
      have hupper := eq_zero_of_load_lt hlt
      refine field_eq_zero fun x hx hx' => ?_
      simp only [nPagesF] at hx hx'
      by_cases hxj : x < 4096 * p + (j + 1)
      · exact fill_apply (by omega) hxj
      · rw [fill_eqOff _ _ _ x (by omega)]
        exact hupper x (by omega) (by omega)
  have heq₁ : EqOff w.nvm.mem m₁ (4096 * p) 64 := hm₁ ▸ (EqOff.refl _ _ _).fill le_rfl le_rfl
  have hz₁ : ∀ x, 4096 * p ≤ x → x < 4096 * p + 64 → m₁ x = 0 := fun x hx hx' =>
    hm₁ ▸ fill_apply hx hx'
  -- behind the page count every store leaves the header without state and size
  have hC : ∀ m', EqOff m₁ m' (4096 * p + 8) 56 → CrashOk B live { w.nvm with mem := m' } := by
    intro m' heq
    have hz : ∀ x, 4096 * p ≤ x → x < 4096 * p + 8 → m' x = 0 := by
      intro x hx hx'
      rw [heq x (by omega)]
      exact hz₁ x hx (by omega)
    have hst : field m' (4096 * p) stateF = 0 :=
      field_eq_zero fun x hx hx' => hz x (by omega) (by simp only [stateF] at hx'; omega)
    have hnp : field m' (4096 * p) nPagesF = 0 :=
      field_eq_zero fun x hx hx' => hz x (by omega) (by simp only [nPagesF] at hx'; omega)
    exact h.crashOk_held hp (heq₁.trans (heq.mono (by omega) (by omega))) (Or.inr rfl)
      (hstuck _ hst hnp) (Or.inl hst) hconv
  refine spec_storeField_within (w := w₁) hC (EqOff.refl _ _ _) (by simp only [vdataF]; omega)
    (by simp only [vdataF]; omega) fun m₂ hm₂ heq₂ => ?_
  have hbitmap : ∀ x, 4096 * p + 48 ≤ x → x < 4096 * p + 48 + 8 → m₂ x = 0 := by
    intro x hx hx'
    rw [hm₂, store_eqOff _ _ _ _ x (by simp only [vdataF]; omega)]
    exact hz₁ x (by omega) (by omega)
  refine spec_memset0_noop (w := w₁) hbitmap (hC _ heq₂) ?_
  refine spec_storeField_within (w := w₁) hC heq₂ (by simp only [bitIdxF]; omega)
    (by simp only [bitIdxF]; omega) fun m₃ hm₃ heq₃ => ?_
  refine spec_storeField_within (w := w₁) hC heq₃ (by simp only [runArenaIdF]; omega)
    (by simp only [runArenaIdF]; omega) fun m₄ hm₄ heq₄ => ?_
  refine spec_storeField_within (w := w₁) hC heq₄ (by simp only [versionF]; omega)
    (by simp only [versionF]; omega) fun m₅ hm₅ heq₅ => ?_
  have hz₅ : ∀ x, 4096 * p ≤ x → x < 4096 * p + 8 → m₅ x = 0 := by
    intro x hx hx'
    rw [heq₅ x (by omega)]
    exact hz₁ x hx (by omega)
  -- a run of slots of no bytes still stops the recovery thread
  refine spec_storeField_then fun m₆ hm₆ => ?_
  have heq₆ : EqOff w.nvm.mem m₆ (4096 * p) 64 :=
    hm₆ ▸ (heq₁.trans (heq₅.mono (by omega) (by omega))).store _ (by omega)
      (by simp only [stateF]; omega)
  have hst₆ : field m₆ (4096 * p) stateF = usageRun + stateInitialized := by
    rw [hm₆, field_store_self]
    rfl
  have hnb₆ : field m₆ (4096 * p) nBytesF = 0 := by
    rw [hm₆, field_store_of_ne (by decide)]
    exact field_eq_zero fun x hx hx' => hz₅ x (by omega) (by simp only [nBytesF] at hx'; omega)
  have hver₆ : field m₆ (4096 * p) versionF = 0 := by
    simp (disch := decide) only [hm₆, hm₅, field_store_of_ne, field_store_self]
    rw [hw₁, hver]
    rfl
  refine ⟨h.crashOk_held hp heq₆ (Or.inr rfl) ?_ (Or.inr ⟨hst₆, hver₆⟩) hconv, ?_⟩
  · simp only [HdrOk, StuckHdr, if_neg hfits.1, hst₆, hnb₆]
    exact Or.inl ⟨by decide, trivial⟩
  refine spec_storeField_then fun m₇ hm₇ => ?_
  have heq₇ : EqOff w.nvm.mem m₇ (4096 * p) 64 :=
    hm₇ ▸ heq₆.store _ (by omega) (by simp only [nBytesF]; omega)
  have hst₇ : field m₇ (4096 * p) stateF = usageRun + stateInitialized := by
    rw [hm₇, field_store_of_ne (by decide), hst₆]
  have hnew : NewRun m₇ (4096 * p) w.nVheaders nBytes a := by
    refine NewRun.of_zero hst₇ ?_ ?_ ?_ ?_ fun x hx hx' => ?_
    · rw [hm₇, field_store_self]
      exact Nat.mod_eq_of_lt (by simp only [nBytesF]; omega)
    · simp (disch := decide) only [hm₇, hm₆, hm₅, hm₄, hm₃, hm₂, field_store_of_ne, field_store_self]
      exact Nat.mod_eq_of_lt h.nVheaders_lt
    · simp (disch := decide) only [hm₇, hm₆, hm₅, hm₄, field_store_of_ne, field_store_self]
      exact Nat.mod_eq_of_lt (by simp only [runArenaIdF]; simp only [initialArenas] at ha; omega)
    · simp (disch := decide) only [hm₇, hm₆, hm₅, field_store_of_ne, field_store_self]
      rw [hw₁, hver]
      rfl
    · rw [hm₇, store_eqOff _ _ _ _ x (by simp only [nBytesF]; omega),
        hm₆, store_eqOff _ _ _ _ x (by simp only [stateF]; omega),
        hm₅, store_eqOff _ _ _ _ x (by simp only [versionF]; omega),
        hm₄, store_eqOff _ _ _ _ x (by simp only [runArenaIdF]; omega),
        hm₃, store_eqOff _ _ _ _ x (by simp only [bitIdxF]; omega),
        hm₂, store_eqOff _ _ _ _ x (by simp only [vdataF]; omega)]
      exact hz₁ x (by omega) (by omega)
  have hfin := h.convertRun (x := w.vheaders w.nVheaders) hp heq₇ hnew hb hsize ha rfl
  refine ⟨hfin.crashOk B, spec_persist_then (spec_loadField_then ?_)⟩
  rw [spec_bind, spec_assertThat]
  refine ⟨fun _ => ?_, fun hnot => absurd hst₇ hnot⟩
  rw [spec_pure]
  exact ⟨_, p, rfl, Layout.set_self, hfin, ⟨rfl, rfl, rfl,
    h.nvm.table_eqOn hp (by simp) le_rfl (by rw [Tile.len_block]; omega) heq₇⟩, rfl, rfl, rfl,
    fun ho => ho.set trivial, .set h.nvm.ok hp .run heq₇ fun hchunk _ => hnew.arena.trans hchunk.symm⟩

/-- `arena_create_run` adds one run with a fresh VHeader. -/
theorem arenaCreateRun_spec (h : HeapInv L w live) {a b nBytes : ℕ} (hb : b < 31)
    (hsize : nBytes = 64 * (b + 1)) (ha : a < initialArenas) (hver : w.currentVersion = 0)
    (hgrow : blockUpperBound 1 (w.arenas a).freePageruns = none → B.grow)
    (hconv : ∀ x, blockUpperBound 1 (w.arenas a).freePageruns = some x → x.nPages = 1 →
      B.Converts w.nvm (x.nvmBlock + headerSize)) :
    Spec (arenaCreateRun a b nBytes) (CrashOk B live)
      (MadeRun L w live L.Owned (blockUpperBound 1 (w.arenas a).freePageruns = none → a = 0) a b nBytes)
      (fun e => e = .exit) w := by
  unfold arenaCreateRun
  rw [spec_bind, spec_assertThat]
  refine ⟨fun _ => ?_, fun hnot => absurd hnot (by omega)⟩
  refine (arenaTakeBlock_spec h a (by omega) hgrow).bind ?_
  rintro ⟨x, n, a'⟩ w' ⟨L', p, hblock, hp, hn, hinv, hsame, howned, hsize', hevolves,
    hchunk⟩
  obtain ⟨rfl, -, rfl⟩ := ArenaBlock.mk.injEq .. ▸ hblock
  have hver' : w'.currentVersion = 0 := hsame.currentVersion.trans hver
  have himp : ∀ run w'',
      MadeRun L' w' live (L'.OwnedBut p) (chunkArena (p / 1024) = a') a' b nBytes run w'' →
      MadeRun L w live L.Owned (blockUpperBound 1 (w.arenas a').freePageruns = none → a' = 0) a' b
        nBytes run w'' := by
    rintro run w'' ⟨L'', q, hrun, hq, hinv'', huntouched, hH, hcount, hbin, howned'', hevolves''⟩
    refine ⟨L'', q, hrun.trans hsame.nVheaders, hq, hinv'', hsame.toUntouched.trans huntouched, ?_, ?_,
      hbin.trans hsame.bin, fun ho => howned'' (howned ho), hevolves.trans hchunk hevolves''⟩
    · rw [hH, hsame.vheaders]
    · rw [hcount, hsame.nVheaders]
  rw [spec_ite]
  refine ⟨fun hlarge => (createRunAtEnd_spec hinv hp hlarge hb hsize ha hver').imp himp,
    fun hsmall => ?_⟩
  simp only at hn hsmall hp
  obtain rfl : n = 1 := by omega
  refine (convertToRun_spec hinv hp hb hsize ha hver' ?_).imp himp
  rcases hsize' with hbig | ⟨hlog, hub⟩
  · exact absurd (show 1 = 1023 from hbig) (by decide)
  · exact ⟨(hconv _ hub rfl).1, hlog ▸ (hconv _ hub rfl).2⟩

/-! ## `arena_create_block` -/

/-- A value that is decreased in 32-bit arithmetic without underflow. -/
theorem sub_mod_2_32 {n k : ℕ} (hk : k ≤ n) (hn : n < 2 ^ 32) : (n + 2 ^ 32 - k) % 256 ^ 4 = n - k := by
  omega

/-- `arena_create_block` hands its caller a page run of the requested size. -/
theorem arenaCreateBlock_spec (h : HeapInv L w live) {a k : ℕ} (ha : a < initialArenas) (hk : 0 < k)
    (hk' : k ≤ 1023) (hgrow : blockUpperBound k (w.arenas a).freePageruns = none → B.grow) :
    Spec (arenaCreateBlock a k) (CrashOk B live)
      (fun x w' => ∃ L' q, x = 4096 * q ∧ L' q = some (.block k .held) ∧ HeapInv L' w' live ∧
        PoolOnly w w' ∧ (L.Owned → L'.OwnedBut q) ∧
        Evolves (blockUpperBound k (w.arenas a).freePageruns = none → a = 0) L w.nvm.mem L' w'.nvm.mem)
      (fun e => e = .exit) w := by
  unfold arenaCreateBlock
  refine (arenaTakeBlock_spec h a hk' hgrow).bind ?_
  rintro ⟨x, n, a'⟩ w₁ ⟨L₁, p, hblock, hp, hn, hinv, hsame, howned, -, hevolves, hchunk⟩
  obtain ⟨rfl, -, rfl⟩ := ArenaBlock.mk.injEq .. ▸ hblock
  simp only at hn hp
  rw [spec_ite]
  refine ⟨fun hlarge => ?_, fun hsmall => ?_⟩
  swap
  · simp only at hsmall
    obtain rfl : n = k := by omega
    rw [spec_pure]
    exact ⟨L₁, p, rfl, hp, hinv, hsame, howned, hevolves⟩
  simp only at hlarge
  have hq : 4096 * p + (n - k) * blockSize = 4096 * (p + n - k) := by
    simp only [blockSize]
    omega
  have hfits : (Tile.block n .held).Fits p := hinv.nvm.ok.fits hp
  have hfits₁ := hfits.1
  have hfits₂ := hfits.2
  have hbody : L₁.Body (4096 * (p + n - k)) 64 :=
    ⟨p, _, hp, by simp, by omega, by rw [Tile.len_block]; omega⟩
  have hC : ∀ m', EqOff w₁.nvm.mem m' (4096 * (p + n - k)) 64 →
      CrashOk B live { w₁.nvm with mem := m' } :=
    fun m' heq => (hinv.body hbody heq).crashOk B
  simp only [hq]
  change Spec _ _ _ _ (w₁.setMem w₁.nvm.mem)
  -- the header of the new block is written inside the old one
  refine spec_storeField_within hC (EqOff.refl _ _ _) (by omega) (by simp only [stateF]; omega)
    fun m₁ hm₁ heq₁ => ?_
  refine spec_storeField_within hC heq₁ (by omega) (by simp only [nPagesF]; omega)
    fun m₂ hm₂ heq₂ => ?_
  refine spec_storeField_within hC heq₂ (by omega) (by simp only [blockArenaIdF]; omega)
    fun m₃ hm₃ heq₃ => ?_
  have hquiet₃ : Quiet m₃ (p + n - k) (.block k .held) := by
    refine ⟨?_, ?_, ?_, by simp⟩
    · rw [hm₃, field_store_of_ne (by decide), hm₂, field_store_self]
      exact Nat.mod_eq_of_lt (by simp only [nPagesF]; omega)
    · rw [hm₃, field_store_self]
      exact (Nat.mod_le _ _).trans_lt ha
    · simp (disch := decide) only [hm₃, hm₂, hm₁, field_store_of_ne, field_store_self]
      rfl
  have hbodyInv : HeapInv L₁ (w₁.setMem m₃) live := hinv.body hbody heq₃
  obtain ⟨hpages, harena, hstate, -⟩ : Quiet m₃ p (.block n .held) := hbodyInv.nvm.quiet hp
  refine spec_persist_then (spec_loadField_then ?_)
  rw [show field (w₁.setMem m₃).nvm.mem (4096 * p) nPagesF = n from hpages]
  -- shrinking the old block commits the split
  refine spec_storeField_then fun m₄ hm₄ => ?_
  have heq₄ : EqOff m₃ m₄ (4096 * p) 64 :=
    hm₄ ▸ (EqOff.refl _ _ _).store _ (by omega) (by simp only [nPagesF]; omega)
  have hpages₄ : field m₄ (4096 * p) nPagesF = n - k := by
    rw [hm₄, field_store_self]
    exact sub_mod_2_32 hn (by omega)
  have hquiet₄ : Quiet m₄ p (.block (n - k) .held) := by
    refine ⟨hpages₄, ?_, ?_, by simp⟩
    · rwa [hm₄, field_store_of_ne (by decide)]
    · rwa [hm₄, field_store_of_ne (by decide)]
  have hpq : p ≠ p + n - k := by omega
  have hnone : L₁ (p + n - k) = none :=
    hinv.nvm.ok.none_inside hp (by omega) (by rw [Tile.len_block]; omega)
  have hnvm := hbodyInv.nvm.split (u := .block (n - k) .held) (v := .block k .held) hp hk hlarge heq₄
    rfl rfl ⟨hfits₁, by omega⟩ ⟨by rw [Tile.len_block]; omega, by rw [Tile.len_block]; omega⟩ hquiet₄
    (hquiet₃.congr (heq₄.eqOn (Or.inr (by omega)))) (by simp) (by simp) (by simp) (by simp) (by simp)
    (fun _ hx => hx)
  have hfin := hbodyInv.splitHeld hp hnone hnvm heq₄ trivial trivial trivial
  refine ⟨hfin.crashOk B, spec_loadField_then ?_⟩
  rw [spec_bind, spec_assertThat]
  refine ⟨fun _ => spec_persist_then ?_, fun hnot => absurd hnot ?_⟩
  swap
  · rw [setMem_nvm, hpages₄]
    omega
  unfold addFreePagerun
  rw [spec_bind, spec_modify, spec_pure]
  have hput := hfin.putPages (n := n - k) a' (by rw [Layout.set_of_ne hpq, Layout.set_self])
  refine ⟨_, p + n - k, rfl, ?_, hput, hsame.trans ⟨⟨rfl, rfl, rfl, ?_⟩, rfl, rfl, setTree_bin _ _ _⟩,
    fun ho => (howned ho).split (t := .block (n - k) (.pool a')) ha, hevolves.trans hchunk ?_⟩
  · rw [Layout.set_of_ne (Ne.symm hpq), Layout.set_self]
  · have heq : EqOff w₁.nvm.mem m₄ (4096 * p) (4096 * n) :=
      (heq₃.mono (by omega) (by omega)).trans (heq₄.mono le_rfl (by omega))
    exact hinv.nvm.table_eqOn hp (by simp) le_rfl (by rw [Tile.len_block]; omega) heq
  · have hcut : Evolves (chunkArena (p / 1024) = a') L₁ w₁.nvm.mem
        ((L₁.set p (.block (n - k) .held)).set (p + n - k) (.block k .held)) m₄ := by
      refine hbodyInv.evolves_split hp hk hlarge (.body hinv.nvm.ok hbody heq₃) heq₄ ?_
        fun hsame' hchunk' => ⟨?_, by simp⟩
      · rw [hm₄, field_store_of_ne (by decide)]
        rfl
      · rw [field_eqOn (heq₄.eqOn (Or.inr (by omega))) (by decide), hm₃, field_store_self, hsame',
          hchunk']
        exact Nat.mod_eq_of_lt (by simp only [blockArenaIdF]; simp only [initialArenas] at ha; omega)
    exact hcut.trans (fun hchunk' _ => hchunk') (hfin.evolves_putPages hpq)

/-! ## The huge branch of `nvm_reserve` -/

/-- Splitting `k` chunks off a huge region taken from the pool. -/
theorem splitChunks_spec (h : HeapInv L w live) {n k : ℕ} (hp : L p = some (.huge n .held))
    (hstate : field w.nvm.mem (4096 * p) stateF = usageFree + stateInitialized) (hk : 0 < k)
    (hkn : k < n) :
    Spec (splitChunks ⟨4096 * p, n⟩ k) (CrashOk B live)
      (fun x w' => ∃ L' q, x = 4096 * q ∧ L' q = some (.huge k .held) ∧ HeapInv L' w' live ∧
        PoolOnly w w' ∧ (L.OwnedBut p → L'.OwnedBut q) ∧ Evolves True L w.nvm.mem L' w'.nvm.mem)
      (fun e => e = .exit) w := by
  have hq : 4096 * p + (n - k) * chunkSize = 4096 * (p + 1024 * n - 1024 * k) := by
    simp only [chunkSize]
    omega
  have hfits : (Tile.huge n .held).Fits p := h.nvm.ok.fits hp
  have hend := h.nvm.ok.add_len_le hp
  have hmax := h.nvm.le
  rw [Tile.len_huge] at hend
  rw [show maxNvmChunks = 25600 by decide] at hmax
  simp only [Tile.Fits] at hfits
  have hbody : L.Body (4096 * (p + 1024 * n - 1024 * k)) 64 :=
    ⟨p, _, hp, by simp, by omega, by rw [Tile.len_huge]; omega⟩
  have hC : ∀ m', EqOff w.nvm.mem m' (4096 * (p + 1024 * n - 1024 * k)) 64 →
      CrashOk B live { w.nvm with mem := m' } :=
    fun m' heq => (h.body hbody heq).crashOk B
  unfold splitChunks
  simp only [hq]
  change Spec _ _ _ _ (w.setMem w.nvm.mem)
  refine spec_storeField_within hC (EqOff.refl _ _ _) (by omega) (by simp only [stateF]; omega)
    fun m₁ hm₁ heq₁ => ?_
  refine spec_storeField_within hC heq₁ (by omega) (by simp only [nChunksF]; omega)
    fun m₂ hm₂ heq₂ => ?_
  have hstate₂ : field m₂ (4096 * (p + 1024 * n - 1024 * k)) stateF =
      usageFree + stateInitialized := by
    rw [hm₂, field_store_of_ne (by decide), hm₁, field_store_self]
    rfl
  have hquiet₂ : Quiet m₂ (p + 1024 * n - 1024 * k) (.huge k .held) := by
    refine ⟨?_, Or.inl hstate₂, by simp⟩
    rw [hm₂, field_store_self]
    exact Nat.mod_eq_of_lt (by simp only [nChunksF]; omega)
  have hbodyInv : HeapInv L (w.setMem m₂) live := h.body hbody heq₂
  have hline₂ : EqOn w.nvm.mem m₂ (4096 * p) 64 := heq₂.eqOn (Or.inl (by omega))
  have hchunks : field m₂ (4096 * p) nChunksF = n := (hbodyInv.nvm.quiet hp).1
  refine spec_persist_then (spec_loadField_then ?_)
  rw [show field (w.setMem m₂).nvm.mem (4096 * p) nChunksF = n from hchunks]
  refine spec_storeField_then fun m₃ hm₃ => ?_
  have heq₃ : EqOff m₂ m₃ (4096 * p) 64 :=
    hm₃ ▸ (EqOff.refl _ _ _).store _ (by omega) (by simp only [nChunksF]; omega)
  have hline₃ : EqOn m₂ m₃ (4096 * (p + 1024 * n - 1024 * k)) 64 := heq₃.eqOn (Or.inr (by omega))
  have hstate₃ : field m₃ (4096 * p) stateF = usageFree + stateInitialized := by
    rw [hm₃, field_store_of_ne (by decide), field_eqOn hline₂ (by decide), hstate]
  have hquiet₃ : Quiet m₃ p (.huge (n - k) .held) := by
    refine ⟨?_, Or.inl hstate₃, by simp⟩
    rw [hm₃, field_store_self]
    exact sub_mod_2_32 hkn.le (by omega)
  have hpq : p ≠ p + 1024 * n - 1024 * k := by omega
  have hnone : L (p + 1024 * n - 1024 * k) = none :=
    h.nvm.ok.none_inside hp (by omega) (by rw [Tile.len_huge]; omega)
  have hnvm := hbodyInv.nvm.split (k := 1024 * k) (u := .huge (n - k) .held) (v := .huge k .held) hp
    (by omega) (by rw [Tile.len_huge]; omega) heq₃ (by simp only [Tile.len_huge]; omega) rfl hfits
    (by simp only [Tile.Fits, Tile.len_huge]; omega) hquiet₃
    (hquiet₂.congr hline₃) (by simp) (by simp) (by simp) (fun _ _ _ => by rw [hstate₃]; decide)
    (fun _ _ _ => by
      rw [Tile.len_huge, field_eqOn hline₃ (by decide), hstate₂]
      decide) (fun _ hx => hx)
  have hfin := hbodyInv.splitHeld hp hnone hnvm heq₃ trivial trivial trivial
  refine ⟨hfin.crashOk B, ?_⟩
  unfold addFreeChunk
  rw [spec_bind, spec_modify, spec_pure]
  have hput := hfin.putChunks (n := n - k) (by rw [Layout.set_of_ne hpq, Layout.set_self]) hstate₃
  refine ⟨_, p + 1024 * n - 1024 * k, rfl, ?_, hput, ⟨⟨rfl, rfl, rfl, ?_⟩, rfl, rfl, rfl⟩,
    fun ho => ho.split (t := .huge (n - k) (.pool 0)) rfl, ?_⟩
  · rw [Layout.set_of_ne (Ne.symm hpq), Layout.set_self]
  · have heq : EqOff w.nvm.mem m₃ (4096 * p) (4194304 * n) :=
      (heq₂.mono (by omega) (by omega)).trans (heq₃.mono le_rfl (by omega))
    exact h.nvm.table_eqOn hp (by simp) le_rfl (by rw [Tile.len_huge]; omega) heq
  · have hhead : Evolves True L w.nvm.mem (L.set p (.huge (n - k) .held)) m₃ :=
      (Evolves.body h.nvm.ok hbody heq₂).trans (fun h _ => h)
        (.set h.nvm.ok hp .huge heq₃ fun _ _ => trivial)
    have htail : Evolves True (L.set p (.huge (n - k) .held)) m₃
        ((L.set p (.huge (n - k) .held)).set (p + 1024 * n - 1024 * k) (.huge k .held)) m₃ :=
      .add (by rwa [Layout.set_of_ne (Ne.symm hpq)]) (fun _ _ _ => EqOn.refl _ _ _) fun _ _ => trivial
    refine (hhead.trans (fun h _ => h) htail).trans (fun h _ => h) (.set hfin.nvm.ok
      (t := .huge (n - k) .held) ?_ .huge (EqOff.refl _ _ _) fun _ _ => trivial)
    rw [Layout.set_of_ne hpq, Layout.set_self]

/-- The huge branch of `nvm_reserve` hands its caller a region of the requested size. -/
theorem nvmReserveChunks_spec (h : HeapInv L w live) {k : ℕ} (hk : 0 < k) (hk' : k < 2 ^ 32)
    (hgrow : chunkUpperBound k w.freeChunks = none → B.grow) :
    Spec (nvmReserveChunks k) (CrashOk B live)
      (fun x w' => ∃ L' q, x = 4096 * q ∧ L' q = some (.huge k .held) ∧ HeapInv L' w' live ∧
        PoolOnly w w' ∧ (L.Owned → L'.OwnedBut q) ∧ Evolves True L w.nvm.mem L' w'.nvm.mem)
      (fun e => e = .exit) w := by
  unfold nvmReserveChunks
  rw [spec_bind, spec_get, Nat.mod_eq_of_lt hk']
  cases hub : chunkUpperBound k w.freeChunks with
  | none => exact nvmReserveHuge_spec h (hgrow hub) hk
  | some x =>
    have hle : k ≤ x.nChunks := SearchTree.le_key_treeUpperBound (by simp) hub
    have hmem : x ∈ w.freeChunks.toList := by
      rcases SearchTree.treeUpperBound_mem hub with hmem | hnone
      · exact hmem
      · exact absurd hnone (by simp)
    obtain ⟨p, hp, hx, hinv⟩ := h.takeChunks hmem
    obtain ⟨-, hstate, -⟩ : Quiet w.nvm.mem p (.huge x.nChunks (.pool 0)) := h.nvm.quiet hp
    have hsame : PoolOnly w { w with freeChunks := w.freeChunks.treeDel x } :=
      ⟨⟨rfl, rfl, rfl, fun _ _ => EqOn.refl _ _ _⟩, rfl, rfl, rfl⟩
    obtain ⟨addr, n⟩ := x
    obtain ⟨rfl, -⟩ := Huge.mk.injEq .. ▸ hx
    simp only at hle hp hinv hsame
    simp only
    rw [spec_bind, spec_modify, spec_ite]
    have hhold : Evolves True L w.nvm.mem (L.set p (.huge n .held)) w.nvm.mem :=
      .set h.nvm.ok hp .huge (EqOff.refl _ _ _) fun _ _ => trivial
    refine ⟨fun hlarge => ?_, fun hsmall => ?_⟩
    · refine (splitChunks_spec hinv Layout.set_self hstate hk hlarge).imp ?_
      rintro y w' ⟨L', q, hy, hq, hinv', hsame', howned', hevolves⟩
      exact ⟨L', q, hy, hq, hinv', hsame.trans hsame', fun ho => howned' ho.hold,
        hhold.trans (fun h _ => h) hevolves⟩
    · obtain rfl : n = k := by omega
      rw [spec_pure]
      exact ⟨_, p, rfl, Layout.set_self, hinv, hsame, fun ho => ho.hold, hhold⟩

end NvmMalloc
