import NvmMalloc.Moves
import NvmMalloc.Evolution

/-!
# Growing the heap

Reference: `src/chunk.c` (`activate_more_chunks`), `src/arena.c` (`arena_add_chunk`),
`src/nvm_malloc.c` (`nvm_reserve_huge`).

New chunks are full of zeros.  Until their headers are written the recovery thread cannot pass them,
which the layout records as a `stuck` tile at the end of the heap.
-/

namespace NvmMalloc

open Memory CrashM

variable {L L' : Layout} {w : World} {live : List Region} {B : Blame} {c : ℕ} {u : Tile}

/-! ## Layouts of a grown heap -/

theorem Layout.set_set {p : ℕ} {t : Tile} : (L.set p t).set p u = L.set p u := by
  unfold Layout.set
  rw [Function.update_idem]

/-- One more arena chunk: its header page and one tile behind it. -/
theorem Layout.Ok.growChunk (h : L.Ok c) (hlen : u.len = 1023) (hfits : u.Fits (1024 * c + 1)) :
    ((L.set (1024 * c) .arena).set (1024 * c + 1) u).Ok (c + 1) := by
  have happ := h.append (t := .stuck 1024) Nat.one_pos (by simp) trivial
  have hidx : 1024 * c + (Tile.stuck 1024).len - 1023 = 1024 * c + 1 := by
    rw [Tile.len_stuck]
    omega
  have hsplit := happ.split (k := 1023) (u := .arena) (v := u) Layout.set_self (by omega)
    (by rw [Tile.len_stuck]; omega) (by simp) hlen (Nat.mul_mod_right 1024 c)
    (by rw [hidx]; exact hfits)
  rwa [hidx, Layout.set_set] at hsplit

/-- The new tiles of a grown heap, by case. -/
theorem Layout.growChunk_cases {x : ℕ} {v : Tile}
    (hx : (L.set (1024 * c) .arena).set (1024 * c + 1) u x = some v) :
    (x = 1024 * c + 1 ∧ v = u) ∨ (x = 1024 * c ∧ v = .arena) ∨ L x = some v := by
  rcases Layout.set_eq_some hx with h | ⟨-, hx⟩
  · exact Or.inl h
  · rcases Layout.set_eq_some hx with h | ⟨-, hx⟩
    · exact Or.inr (Or.inl h)
    · exact Or.inr (Or.inr hx)

/-! ## Invariants of a grown heap -/

/-- The chunks up to `c` are as before, and so is the activation log. -/
structure Grown (c : ℕ) (L L' : Layout) (nvm nvm' : Nvm) : Prop where
  old : ∀ x < 1024 * c, L' x = L x
  mem : EqOn nvm.mem nvm'.mem 0 (4194304 * c)
  log : nvm'.log = nvm.log
  version : nvm'.version = nvm.version

namespace Grown

variable {nvm nvm' : Nvm}

/-- An old tile is still there with the same header. -/
theorem tile (h : Grown c L L' nvm nvm') (hok : L.Ok c) {p : ℕ} {t : Tile} (hp : L p = some t) :
    L' p = some t ∧ EqOn nvm.mem nvm'.mem (4096 * p) 64 := by
  have hend := hok.add_len_le hp
  have hpos := hok.len_pos hp
  refine ⟨by rw [h.old p (by omega), hp], h.mem.mono (Nat.zero_le _) (by lia)⟩

/-- A tile is an old one or lies in the new chunks. -/
theorem cases (h : Grown c L L' nvm nvm') (hok : L.Ok c) {p : ℕ} {t : Tile} (hp : L' p = some t) :
    (L p = some t ∧ EqOn nvm.mem nvm'.mem (4096 * p) 64) ∨ 1024 * c ≤ p := by
  by_cases hlt : p < 1024 * c
  · have hp' : L p = some t := by rw [← h.old p hlt, hp]
    exact Or.inl ⟨hp', (h.tile hok hp').2⟩
  · exact Or.inr (by omega)

/-- The object tables are in old chunks. -/
theorem table (h : Grown nvm.nextChunk L L' nvm nvm') (hinv : NvmInv L nvm) :
    ∀ c < initialArenas, EqOn nvm.mem nvm'.mem (4194304 * c) 4096 := by
  intro c hc
  have hlt := hinv.lt_nextChunk (hinv.base c hc)
  exact h.mem.mono (Nat.zero_le _) (by omega)

theorem logged (h : Grown c L L' nvm nvm') (hok : L.Ok c) {x : ℕ} (hx : Logged L x) :
    Logged L' x := by
  obtain ⟨p, t, hp, hn⟩ := hx
  exact ⟨p, t, (h.tile hok hp).1, hn⟩

end Grown

/-- The header of a tile under construction, which is no run and not taken for one. -/
structure Formed (m : Mem) (x : ℕ) (v : Tile) : Prop where
  hdr : HdrOk m x v
  settled : Settled m x
  noRun : ∀ k, v ≠ .run k
  usage : getUsage (field m (4096 * x) stateF) ≠ usageRun
  nonzero : ∀ n o, v = .block n o → field m (4096 * x) stateF ≠ 0

/-- A crash while the heap grows. -/
theorem HeapInv.crashOk_grown (h : HeapInv L w live) {nvm' : Nvm}
    (hg : Grown w.nvm.nextChunk L L' w.nvm nvm') (hok : L'.Ok nvm'.nextChunk)
    (hle : nvm'.nextChunk ≤ maxNvmChunks)
    (hnew : ∀ {x v}, 1024 * w.nvm.nextChunk ≤ x → L' x = some v →
      Formed nvm'.mem x v ∧ ∀ n o, v = .block n o →
        field nvm'.mem (4096 * x) stateF ≠ usageFree + stateInitializing) (hgrow : B.grow) :
    CrashOk B live nvm' := by
  -- the log and the object table name old tiles only
  have hslots : SlotsOk L nvm'.mem := h.nvm.slots.congr (hg.table h.nvm) fun _ hx => hx
  have hnamed : ∀ {q}, 1024 * w.nvm.nextChunk ≤ q → ¬ Mentions nvm' (4096 * q + 64) := by
    intro q hge hmention
    have hlogged : Logged L (4096 * q + 64) := by
      rcases hmention with ⟨i, hi, hlog⟩ | ⟨s, hs, hst, hptr⟩
      · rw [hg.log] at hlog
        exact hlog ▸ h.nvm.log i hi (by omega)
      · exact hptr ▸ hslots s hs hst
    obtain ⟨q', v', hq', hnames⟩ := hlogged
    have hpage := hnames.page
    have hend := h.nvm.ok.add_len_le hq'
    have hpos := h.nvm.ok.len_pos hq'
    omega
  refine ⟨L', 0, h.nvm.imgStep hok hle
    (fun b hb => (hg.tile h.nvm.ok (h.nvm.base b hb)).1) (fun {q v} hq => ?_) hg.log
    (fun x => hg.logged h.nvm.ok)
    hg.version (hg.table h.nvm) (fun {u} h0 => ?_), fun r hr hactive => ?_, ?_, ?_, ?_, ?_⟩
  · rcases hg.cases h.nvm.ok hq with hold | hge
    · exact Or.inl hold
    · obtain ⟨hform, hblock⟩ := hnew hge hq
      exact Or.inr ⟨hform.hdr, fun _ => hform.settled, fun k hk => absurd hk (hform.noRun k),
        fun n _ => ⟨Or.inr (Or.inr hge), fun husage => absurd husage hform.usage⟩, hblock⟩
  · rcases hg.cases h.nvm.ok h0 with ⟨hold, heq⟩ | hge
    · exact (h.nvm.quiet hold).settled.congr heq
    · exact (hnew hge h0).1.settled
  · exact (h.kept r hr hactive).congr (fun p k hp => hg.tile h.nvm.ok hp)
      (fun p n o hp _ => ⟨⟨o, (hg.tile h.nvm.ok hp).1⟩, (hg.tile h.nvm.ok hp).2⟩)
      (fun p n o hp _ => ⟨⟨o, (hg.tile h.nvm.ok hp).1⟩, (hg.tile h.nvm.ok hp).2⟩)
  · intro q n hq
    rcases hg.cases h.nvm.ok hq with hold | hge
    · exact absurd (h.nvm.quiet hold.1) id
    · exact Or.inr ⟨hgrow, (hnew hge hq).1.usage, hnamed hge⟩
  · intro q n o hq hst
    rcases hg.cases h.nvm.ok hq with ⟨hold, heq⟩ | hge
    · rw [field_eqOn heq (by decide)] at hst
      exact absurd hst (h.nvm.quiet hold).state_ne_zero
    · exact absurd hst ((hnew hge hq).1.nonzero n o rfl)
  · intro q n o i hq hi hlog hst
    rcases hg.cases h.nvm.ok hq with ⟨hold, heq⟩ | hge
    · rw [field_eqOn heq (by decide)] at hst
      rw [hg.log] at hlog
      exact (h.nvm.blames B).fresh hold hi hlog hst
    · exact absurd (Or.inl ⟨i, hi, hlog⟩) (hnamed hge)
  · intro q v hq hpend
    refine absurd hpend (Settled.not_pending ?_)
    rcases hg.cases h.nvm.ok hq with ⟨hold, heq⟩ | hge
    · exact (h.nvm.quiet hold).settled.congr heq
    · exact (hnew hge hq).1.settled

/-- The heap with new chunks in the hands of the call. -/
theorem HeapInv.grown (h : HeapInv L w live) {nvm' : Nvm}
    (hg : Grown w.nvm.nextChunk L L' w.nvm nvm') (hok : L'.Ok nvm'.nextChunk)
    (hle : nvm'.nextChunk ≤ maxNvmChunks)
    (hzero : ∀ x, 4194304 * nvm'.nextChunk ≤ x → nvm'.mem x = 0)
    (hnew : ∀ {x v}, 1024 * w.nvm.nextChunk ≤ x → L' x = some v →
      Quiet nvm'.mem x v ∧ (v = .arena ∨ v.Held)) : HeapInv L' { w with nvm := nvm' } live := by
  have hiff : ∀ {v : Tile}, v ≠ .arena → ¬ v.Held → ∀ x, L' x = some v ↔ L x = some v := by
    intro v hne hv x
    constructor
    · intro hx
      rcases hg.cases h.nvm.ok hx with hold | hge
      · exact hold.1
      · rcases (hnew hge hx).2 with harena | hheld
        · exact absurd harena hne
        · exact absurd hheld hv
    · exact fun hx => (hg.tile h.nvm.ok hx).1
  refine ⟨?_, ?_, ?_, ?_⟩
  · refine h.nvm.step hok hle (fun b hb => (hg.tile h.nvm.ok (h.nvm.base b hb)).1)
      (fun {q v} hq => ?_) hzero hg.log (fun x => hg.logged h.nvm.ok) hg.version (hg.table h.nvm)
    rcases hg.cases h.nvm.ok hq with hold | hge
    · exact Or.inl hold
    · obtain ⟨hquiet, hkind⟩ := hnew hge hq
      refine Or.inr ⟨hquiet, fun k hk => ?_, fun n o i _ hi hnamed => ?_⟩
      · subst hk
        rcases hkind with hkind | hkind
        · exact absurd hkind (by simp)
        · exact absurd hkind id
      · -- the log names old tiles only
        obtain ⟨q', v', hq', hnames⟩ := h.nvm.log i hi (by omega)
        have hpage := hnames.page
        have hend := h.nvm.ok.add_len_le hq'
        have hpos := h.nvm.ok.len_pos hq'
        omega
  · exact h.pool.congr (fun x n a => hiff (by simp) id x) (fun x n a => hiff (by simp) id x)
      (fun _ => rfl) rfl
  · exact h.runs.congr (fun x k => hiff (by simp) id x) (fun x k hx => (hg.tile h.nvm.ok hx).2) rfl rfl
  · exact h.live.congr (fun x k => hiff (by simp) id x) (fun x n b => hiff (by simp) id x)
      (fun x n b => hiff (by simp) id x)
      (fun x k i hx hi => bitmapBit_eqOn (hg.tile h.nvm.ok hx).2 hi) (fun x k hx => h.slots_le hx)
      (fun _ _ _ => rfl)

/-! ## `activate_more_chunks` -/

/-- A crash right after the heap has grown: the new chunks are all zeros. -/
theorem HeapInv.crashOk_zeroChunks (h : HeapInv L w live) (hgrow : B.grow) {n : ℕ} (hn : 0 < n)
    (hle : w.nvm.nextChunk + n ≤ maxNvmChunks) :
    CrashOk B live { w.nvm with nextChunk := w.nvm.nextChunk + n } := by
  have hgrown : Grown w.nvm.nextChunk L (L.set (1024 * w.nvm.nextChunk) (.stuck (1024 * n))) w.nvm
      { w.nvm with nextChunk := w.nvm.nextChunk + n } :=
    ⟨fun x hx => Layout.set_of_ne (by omega), EqOn.refl _ _ _, rfl, rfl⟩
  refine h.crashOk_grown hgrown (h.nvm.ok.append hn rfl trivial) hle (fun {x v} hge hx => ?_) hgrow
  rcases Layout.set_eq_some hx with ⟨rfl, rfl⟩ | ⟨-, hx⟩
  · have hz : ∀ f : NvmField, field w.nvm.mem (4096 * (1024 * w.nvm.nextChunk)) f = 0 := fun f =>
      field_eq_zero fun y hy _ => h.nvm.zero y (by omega)
    refine ⟨⟨?_, ?_, by simp, ?_, by simp⟩, by simp⟩
    · simp only [HdrOk, StuckHdr, Nat.mul_mod_right, if_true, hz]
      decide
    · simp only [Settled, hz]
      decide
    · rw [hz]
      decide
  · rw [h.nvm.ok.eq_none hge] at hx
    exact absurd hx (by simp)

theorem activateMoreChunks_spec {C : Nvm → Prop} {n : ℕ}
    (hC : w.nvm.nextChunk + n ≤ maxNvmChunks →
      C { w.nvm with nextChunk := w.nvm.nextChunk + n }) :
    Spec (activateMoreChunks n) C
      (fun addr w' => addr = w.nvm.nextChunk * chunkSize ∧
        w' = { w with nvm := { w.nvm with nextChunk := w.nvm.nextChunk + n } } ∧
        w.nvm.nextChunk + n ≤ maxNvmChunks)
      (fun e => e = .exit) w := by
  unfold activateMoreChunks
  simp only [spec_bind, spec_get, spec_ite, spec_throw, spec_commitMeta, spec_pure]
  exact ⟨fun _ => trivial, fun hle => ⟨hC (by omega), trivial, trivial, by omega⟩⟩

/-! ## `arena_add_chunk` -/

/-- The first two pages of the chunk after the last one. -/
theorem HeapInv.grown_of_eqOff (h : HeapInv L w live) {G : Layout} {m : Mem} {n k : ℕ}
    (hn : n ≤ 4194304 * k) (hold : ∀ x < 1024 * w.nvm.nextChunk, G x = L x)
    (heq : EqOff w.nvm.mem m (4194304 * w.nvm.nextChunk) n) :
    Grown w.nvm.nextChunk L G w.nvm { w.nvm with mem := m, nextChunk := w.nvm.nextChunk + k } ∧
      ∀ x, 4194304 * (w.nvm.nextChunk + k) ≤ x → m x = 0 := by
  refine ⟨⟨hold, heq.eqOn (Or.inl (by omega)), rfl, rfl⟩, fun x hx => ?_⟩
  rw [heq x (Or.inr (by omega))]
  exact h.nvm.zero x (by omega)

/-- A crash while an arena chunk is set up: its state byte is written, its first block is `u`. -/
theorem HeapInv.crashOk_addChunk (h : HeapInv L w live) (hgrow : B.grow)
    (hle : w.nvm.nextChunk + 1 ≤ maxNvmChunks) {m : Mem} (hlen : u.len = 1023)
    (hfits : u.Fits (1024 * w.nvm.nextChunk + 1)) (hrun : ∀ k, u ≠ .run k)
    (heq : EqOff w.nvm.mem m (4194304 * w.nvm.nextChunk) 8192)
    (hstate : field m (4096 * (1024 * w.nvm.nextChunk)) stateF = usageArena + stateInitializing ∨
      field m (4096 * (1024 * w.nvm.nextChunk)) stateF = usageArena + stateInitialized)
    (hhdr : HdrOk m (1024 * w.nvm.nextChunk + 1) u)
    (hset : Settled m (1024 * w.nvm.nextChunk + 1))
    (husage : getUsage (field m (4096 * (1024 * w.nvm.nextChunk + 1)) stateF) ≠ usageRun)
    (hblock : ∀ n o, u = .block n o →
      field m (4096 * (1024 * w.nvm.nextChunk + 1)) stateF = usageFree + stateInitialized) :
    CrashOk B live { w.nvm with mem := m, nextChunk := w.nvm.nextChunk + 1 } := by
  obtain ⟨hgrown, -⟩ := h.grown_of_eqOff
    (G := (L.set (1024 * w.nvm.nextChunk) .arena).set (1024 * w.nvm.nextChunk + 1) u) (k := 1)
    (by omega) (fun x hx => by rw [Layout.set_of_ne (by omega), Layout.set_of_ne (by omega)]) heq
  refine h.crashOk_grown hgrown (h.nvm.ok.growChunk hlen hfits) hle (fun {x v} hge hx => ?_) hgrow
  rcases Layout.growChunk_cases hx with ⟨rfl, rfl⟩ | ⟨rfl, rfl⟩ | hx
  · refine ⟨⟨hhdr, hset, hrun, husage, fun n o hu => ?_⟩, fun n o hu => ?_⟩ <;> rw [hblock n o hu] <;>
      decide
  · refine ⟨⟨?_, ?_, by simp, ?_, by simp⟩, by simp⟩
    · simp only [HdrOk]
      rcases hstate with hst | hst <;> rw [hst] <;> decide
    · simp only [Settled]
      rcases hstate with hst | hst <;> rw [hst] <;> decide
    · rcases hstate with hst | hst <;> rw [hst] <;> decide
  · rw [h.nvm.ok.eq_none hge] at hx
    exact absurd hx (by simp)

/-- Writes behind the end of the heap keep its headers. -/
theorem HeapInv.eqOn_below (h : HeapInv L w live) {m : Mem} {k : ℕ}
    (heq : EqOff w.nvm.mem m (4194304 * w.nvm.nextChunk) k) :
    ∀ q t, L q = some t → EqOn w.nvm.mem m (4096 * q) 64 := by
  intro q t ht
  have hend := h.nvm.ok.add_len_le ht
  have hpos := h.nvm.ok.len_pos ht
  exact heq.eqOn (Or.inl (by omega))

/-- The pages behind the end of the heap do not belong to the chunks that `arena_init` has set up. -/
theorem HeapInv.chunkArena_page (h : HeapInv L w live) {p : ℕ} (hp : 1024 * w.nvm.nextChunk ≤ p) :
    chunkArena (p / 1024) = 0 := by
  have hbase := h.nvm.lt_nextChunk (h.nvm.base 19 (by decide))
  unfold chunkArena
  rw [if_neg]
  simp only [initialArenas]
  omega

/-- The layout evolves when a chunk is added; its page run belongs to arena 0. -/
theorem HeapInv.evolves_growChunk (h : HeapInv L w live) {m : Mem} {C : Prop}
    (heq : EqOff w.nvm.mem m (4194304 * w.nvm.nextChunk) 8192)
    (harena : field m (4096 * (1024 * w.nvm.nextChunk + 1)) blockArenaIdF = 0) :
    Evolves C L w.nvm.mem
      ((L.set (1024 * w.nvm.nextChunk) .arena).set (1024 * w.nvm.nextChunk + 1) (.block 1023 .held))
      m := by
  have harenaChunk : Evolves C L w.nvm.mem (L.set (1024 * w.nvm.nextChunk) .arena) m :=
    .add (h.nvm.ok.eq_none le_rfl) (h.eqOn_below heq) fun _ _ => trivial
  refine harenaChunk.trans (fun hC _ => hC) (Evolves.add ?_ (fun _ _ _ => EqOn.refl _ _ _)
    fun _ _ => ⟨?_, by simp⟩)
  · rw [Layout.set_of_ne (by omega)]
    exact h.nvm.ok.eq_none (by omega)
  · rw [harena, h.chunkArena_page (by omega)]

/-- `arena_add_chunk` hands its caller the whole new chunk as one page run. -/
theorem arenaAddChunk_spec (h : HeapInv L w live) (hgrow : B.grow) (a : ℕ) :
    Spec (arenaAddChunk a) (CrashOk B live)
      (fun b w' => ∃ L' p, b = ⟨4096 * p, 1023, a⟩ ∧ L' p = some (.block 1023 .held) ∧
        HeapInv L' w' live ∧ PoolOnly w w' ∧ (L.Owned → L'.OwnedBut p) ∧
        Evolves (a = 0) L w.nvm.mem L' w'.nvm.mem ∧ (a = 0 → chunkArena (p / 1024) = a))
      (fun e => e = .exit) w := by
  have hz := h.nvm.zero
  have hB : 4096 * (1024 * w.nvm.nextChunk) = 4194304 * w.nvm.nextChunk := by omega
  have hB1 : 4096 * (1024 * w.nvm.nextChunk + 1) = 4194304 * w.nvm.nextChunk + 4096 := by omega
  have hc : w.nvm.nextChunk * chunkSize = 4194304 * w.nvm.nextChunk := by
    simp only [chunkSize]
    omega
  have hmod : (1024 * w.nvm.nextChunk + 1) % 1024 = 1 := by omega
  unfold arenaAddChunk
  refine (activateMoreChunks_spec fun hle => h.crashOk_zeroChunks hgrow Nat.one_pos hle).bind ?_
  rintro _ _ ⟨rfl, rfl, hle⟩
  rw [hc]
  set w₁ : World := { w with nvm := { w.nvm with nextChunk := w.nvm.nextChunk + 1 } } with hw₁
  change Spec _ _ _ _ (w₁.setMem w.nvm.mem)
  refine spec_memset0_noop (fun x hx _ => hz x (by omega)) 
    (h.crashOk_zeroChunks hgrow Nat.one_pos hle) ?_
  -- the chunk header: everything behind its state byte stays zero
  refine spec_storeField_then fun m₁ hm₁ => ?_
  have heq₁ : EqOff w.nvm.mem m₁ (4194304 * w.nvm.nextChunk) 8192 :=
    hm₁ ▸ (EqOff.refl _ _ _).store _ (by omega) (by simp only [stateF]; omega)
  have hst₁ : field m₁ (4194304 * w.nvm.nextChunk) stateF = usageArena + stateInitializing := by
    rw [hm₁, field_store_self]
    decide
  have hz₁ : ∀ x, 4194304 * w.nvm.nextChunk < x → m₁ x = 0 := by
    intro x hx
    rw [hm₁, store_eqOff _ _ _ _ x (Or.inr (by simp only [stateF]; omega))]
    exact hz x (by omega)
  have hblock₁ : ∀ f : NvmField, field m₁ (4194304 * w.nvm.nextChunk + 4096) f = 0 :=
    fun f => field_eq_zero fun x hx _ => hz₁ x (by omega)
  have hcrash₁ : CrashOk B live { w₁.nvm with mem := m₁ } := by
    refine h.crashOk_addChunk hgrow hle (u := .stuck 1023) rfl trivial (by simp) heq₁
      (Or.inl (hB ▸ hst₁)) ?_ ?_ ?_ (by simp)
    · simp only [HdrOk, StuckHdr, hmod, hB1, hblock₁]
      decide
    · simp only [Settled, hB1, hblock₁]
      decide
    · rw [hB1, hblock₁]
      decide
  refine ⟨hcrash₁, ?_⟩
  refine spec_storeField_noop (fun x hx _ => hz₁ x (by simp only [nextOtChunkF] at hx; omega)) hcrash₁ ?_
  refine spec_persistRange_then ?_
  refine spec_memset0_noop (fun x hx _ => hz₁ x (by simp only [blockSize] at hx; omega)) hcrash₁ ?_
  -- the header of the first block: a free page run of no pages is still no progress
  refine spec_storeField_then fun m₂ hm₂ => ?_
  have heq₂ : EqOff w.nvm.mem m₂ (4194304 * w.nvm.nextChunk) 8192 :=
    hm₂ ▸ heq₁.store _ (by simp only [blockSize]; omega) (by simp only [stateF, blockSize]; omega)
  have hst₂ : field m₂ (4194304 * w.nvm.nextChunk) stateF = usageArena + stateInitializing := by
    rw [hm₂, field_store_disjoint (by simp only [stateF, blockSize]; omega), hst₁]
  have hblock₂ : field m₂ (4194304 * w.nvm.nextChunk + 4096) stateF =
      usageFree + stateInitialized := by
    rw [hm₂]
    exact field_store_self
  have hfield₂ : ∀ f : NvmField, 1 ≤ f.off → field m₂ (4194304 * w.nvm.nextChunk + 4096) f = 0 := by
    intro f hf
    rw [hm₂, ← hblock₁ f]
    exact field_store_of_ne (Or.inr hf)
  refine ⟨?_, ?_⟩
  · refine h.crashOk_addChunk hgrow hle (u := .stuck 1023) rfl trivial (by simp) heq₂
      (Or.inl (hB ▸ hst₂)) ?_ ?_ ?_ (by simp)
    · simp only [HdrOk, StuckHdr, hmod, hB1, hblock₂, hfield₂ nPagesF (by decide)]
      exact Or.inr ⟨by decide, trivial⟩
    · simp only [Settled, hB1, hblock₂]
      decide
    · rw [hB1, hblock₂]
      decide
  -- its size makes it a page run
  refine spec_storeField_then fun m₃ hm₃ => ?_
  have heq₃ : EqOff w.nvm.mem m₃ (4194304 * w.nvm.nextChunk) 8192 :=
    hm₃ ▸ heq₂.store _ (by simp only [blockSize]; omega) (by simp only [nPagesF, blockSize]; omega)
  have hst₃ : field m₃ (4194304 * w.nvm.nextChunk) stateF = usageArena + stateInitializing := by
    rw [hm₃, field_store_disjoint (by simp only [stateF, blockSize]; omega), hst₂]
  have harena₃ : field m₃ (4194304 * w.nvm.nextChunk + 4096) blockArenaIdF = 0 := by
    rw [hm₃, ← hfield₂ blockArenaIdF (by decide)]
    exact field_store_of_ne (by decide)
  have hquiet₃ : Quiet m₃ (1024 * w.nvm.nextChunk + 1) (.block 1023 .held) := by
    refine ⟨?_, ?_, ?_, by simp⟩
    · rw [hB1, hm₃]
      exact field_store_self
    · rw [hB1, harena₃]
      decide
    · have hstate : field m₃ (4194304 * w.nvm.nextChunk + 4096) stateF = 18 := by
        rw [hm₃]
        exact (field_store_of_ne (by decide)).trans hblock₂
      rw [hB1, hstate]
      rfl
  have hfits : (Tile.block 1023 .held).Fits (1024 * w.nvm.nextChunk + 1) :=
    ⟨by omega, by omega⟩
  refine ⟨h.crashOk_addChunk hgrow hle (u := .block 1023 .held) rfl hfits (by simp) heq₃
    (Or.inl (hB ▸ hst₃))
    hquiet₃.hdrOk hquiet₃.settled (by rw [hquiet₃.2.2.1]; decide)
    (fun _ _ _ => by rw [hquiet₃.2.2.1]; decide), ?_⟩
  refine spec_persist_then ?_
  -- the chunk is initialized
  refine spec_storeField_then fun m₄ hm₄ => ?_
  have heq₄ : EqOff w.nvm.mem m₄ (4194304 * w.nvm.nextChunk) 8192 :=
    hm₄ ▸ heq₃.store _ (by omega) (by simp only [stateF]; omega)
  have hst₄ : field m₄ (4194304 * w.nvm.nextChunk) stateF = usageArena + stateInitialized := by
    rw [hm₄, field_store_self]
    decide
  have hquiet₄ : Quiet m₄ (1024 * w.nvm.nextChunk + 1) (.block 1023 .held) := by
    refine hquiet₃.congr ?_
    rw [hm₄, hB1]
    exact (store_eqOff _ _ _ _).eqOn (Or.inr (by simp only [stateF]; omega))
  refine ⟨h.crashOk_addChunk hgrow hle (u := .block 1023 .held) rfl hfits (by simp) heq₄
    (Or.inr (hB ▸ hst₄))
    hquiet₄.hdrOk hquiet₄.settled (by rw [hquiet₄.2.2.1]; decide)
    (fun _ _ _ => by rw [hquiet₄.2.2.1]; decide), ?_⟩
  refine spec_persist_then ?_
  rw [spec_pure]
  obtain ⟨hgrown, hzero⟩ := h.grown_of_eqOff
    (G := (L.set (1024 * w.nvm.nextChunk) .arena).set (1024 * w.nvm.nextChunk + 1)
      (.block 1023 .held)) (k := 1)
    (by omega) (fun x hx => by rw [Layout.set_of_ne (by omega), Layout.set_of_ne (by omega)]) heq₄
  refine ⟨_, 1024 * w.nvm.nextChunk + 1, ?_, Layout.set_self,
    h.grown hgrown (h.nvm.ok.growChunk rfl hfits) hle hzero ?_, ⟨⟨rfl, rfl, rfl, ?_⟩, rfl, rfl, rfl⟩,
    fun ho => (ho.set (t := .arena) trivial).hold, h.evolves_growChunk heq₄ ?_, ?_⟩
  · rw [hB1]
    rfl
  · intro x v hge hx
    rcases Layout.growChunk_cases hx with ⟨rfl, rfl⟩ | ⟨rfl, rfl⟩ | hx
    · exact ⟨hquiet₄, Or.inr trivial⟩
    · refine ⟨?_, Or.inl rfl⟩
      simp only [Quiet, hB]
      exact hst₄
    · rw [h.nvm.ok.eq_none hge] at hx
      exact absurd hx (by simp)
  · intro c hc
    have hlt := h.nvm.lt_nextChunk (h.nvm.base c hc)
    exact heq₄.eqOn (Or.inl (by omega))
  · show field m₄ _ _ = 0
    rw [hm₄, hB1, field_store_disjoint (by simp only [stateF, blockArenaIdF]; omega), harena₃]
  · rintro rfl
    exact h.chunkArena_page (by omega)

/-! ## `nvm_reserve_huge` -/

/-- A crash while a huge region is set up at the end of the heap. -/
theorem HeapInv.crashOk_addHuge (h : HeapInv L w live) (hgrow : B.grow) {m : Mem} {n : ℕ} (hn : 0 < n)
    (hle : w.nvm.nextChunk + n ≤ maxNvmChunks) (hlen : u.len = 1024 * n)
    (hfits : u.Fits (1024 * w.nvm.nextChunk)) (hrun : ∀ k, u ≠ .run k)
    (heq : EqOff w.nvm.mem m (4194304 * w.nvm.nextChunk) 64)
    (hhdr : HdrOk m (1024 * w.nvm.nextChunk) u) (hset : Settled m (1024 * w.nvm.nextChunk))
    (husage : getUsage (field m (4096 * (1024 * w.nvm.nextChunk)) stateF) ≠ usageRun)
    (hblock : ∀ n o, u ≠ .block n o) :
    CrashOk B live { w.nvm with mem := m, nextChunk := w.nvm.nextChunk + n } := by
  obtain ⟨hgrown, -⟩ := h.grown_of_eqOff (G := L.set (1024 * w.nvm.nextChunk) u) (k := n)
    (by omega) (fun x hx => Layout.set_of_ne (by omega)) heq
  refine h.crashOk_grown hgrown (h.nvm.ok.append hn hlen hfits) hle (fun {x v} hge hx => ?_) hgrow
  rcases Layout.set_eq_some hx with ⟨rfl, rfl⟩ | ⟨-, hx⟩
  · exact ⟨⟨hhdr, hset, hrun, husage, fun n o hu => absurd hu (hblock n o)⟩,
      fun n o hu => absurd hu (hblock n o)⟩
  · rw [h.nvm.ok.eq_none hge] at hx
    exact absurd hx (by simp)

/-- `nvm_reserve_huge` hands its caller a new region at the end of the heap. -/
theorem nvmReserveHuge_spec (h : HeapInv L w live) (hgrow : B.grow) {n : ℕ} (hn : 0 < n) :
    Spec (nvmReserveHuge n) (CrashOk B live)
      (fun x w' => ∃ L' p, x = 4096 * p ∧ L' p = some (.huge n .held) ∧ HeapInv L' w' live ∧
        PoolOnly w w' ∧ (L.Owned → L'.OwnedBut p) ∧ Evolves True L w.nvm.mem L' w'.nvm.mem)
      (fun e => e = .exit) w := by
  have hz := h.nvm.zero
  have hB : 4096 * (1024 * w.nvm.nextChunk) = 4194304 * w.nvm.nextChunk := by omega
  have hc : w.nvm.nextChunk * chunkSize = 4194304 * w.nvm.nextChunk := by
    simp only [chunkSize]
    omega
  unfold nvmReserveHuge
  refine (activateMoreChunks_spec fun hle => h.crashOk_zeroChunks hgrow hn hle).bind ?_
  rintro _ _ ⟨rfl, rfl, hle⟩
  rw [hc]
  set w₁ : World := { w with nvm := { w.nvm with nextChunk := w.nvm.nextChunk + n } } with hw₁
  change Spec _ _ _ _ (w₁.setMem w.nvm.mem)
  -- a region of no chunks is no progress
  refine spec_storeField_then fun m₁ hm₁ => ?_
  have heq₁ : EqOff w.nvm.mem m₁ (4194304 * w.nvm.nextChunk) 64 :=
    hm₁ ▸ (EqOff.refl _ _ _).store _ (by omega) (by simp only [stateF]; omega)
  have hst₁ : field m₁ (4194304 * w.nvm.nextChunk) stateF = usageHuge + stateInitializing := by
    rw [hm₁, field_store_self]
    decide
  have hz₁ : ∀ x, 4194304 * w.nvm.nextChunk < x → m₁ x = 0 := by
    intro x hx
    rw [hm₁, store_eqOff _ _ _ _ x (Or.inr (by simp only [stateF]; omega))]
    exact hz x (by omega)
  have hnc₁ : field m₁ (4194304 * w.nvm.nextChunk) nChunksF = 0 :=
    field_eq_zero fun x hx _ => hz₁ x (by simp only [nChunksF] at hx; omega)
  refine ⟨?_, ?_⟩
  · refine h.crashOk_addHuge hgrow (u := .stuck (1024 * n)) hn hle rfl trivial (by simp) heq₁ ?_ ?_ ?_
      (by simp)
    · simp only [HdrOk, StuckHdr, Nat.mul_mod_right, hB, hst₁, hnc₁, if_true]
      exact ⟨by decide, trivial⟩
    · simp only [Settled, hB, hst₁]
      decide
    · rw [hB, hst₁]
      decide
  -- its size makes it a huge region
  refine spec_storeField_then fun m₂ hm₂ => ?_
  have heq₂ : EqOff w.nvm.mem m₂ (4194304 * w.nvm.nextChunk) 64 :=
    hm₂ ▸ heq₁.store _ (by omega) (by simp only [nChunksF]; omega)
  have hst₂ : field m₂ (4194304 * w.nvm.nextChunk) stateF = usageHuge + stateInitializing := by
    rw [hm₂, field_store_of_ne (by decide), hst₁]
  have hquiet₂ : Quiet m₂ (1024 * w.nvm.nextChunk) (.huge n .held) := by
    refine ⟨?_, Or.inr (by rw [hB, hst₂]), by simp⟩
    have hmax : maxNvmChunks = 25600 := by decide
    have hlt : n < 256 ^ nChunksF.width := by
      rw [show 256 ^ nChunksF.width = 4294967296 from rfl]
      omega
    rw [hB, hm₂, field_store_self, Nat.mod_eq_of_lt hlt]
  have hfits : (Tile.huge n .held).Fits (1024 * w.nvm.nextChunk) := Nat.mul_mod_right _ _
  have hcrash₂ : CrashOk B live { w₁.nvm with mem := m₂ } :=
    h.crashOk_addHuge hgrow (u := .huge n .held) hn hle rfl hfits (by simp) heq₂ hquiet₂.hdrOk
      hquiet₂.settled (by rw [hB, hst₂]; decide) (by simp)
  refine ⟨hcrash₂, spec_memset0_noop (fun x hx _ => ?_) hcrash₂ ?_⟩
  · simp only [blockOn] at hx
    rw [hm₂, store_eqOff _ _ _ _ x (Or.inr (by simp only [nChunksF]; omega))]
    exact hz₁ x (by omega)
  refine spec_persist_then ?_
  rw [spec_pure]
  obtain ⟨hgrown, hzero⟩ := h.grown_of_eqOff
    (G := L.set (1024 * w.nvm.nextChunk) (.huge n .held)) (k := n)
    (by omega) (fun x hx => Layout.set_of_ne (by omega)) heq₂
  refine ⟨_, 1024 * w.nvm.nextChunk, hB.symm, Layout.set_self,
    h.grown hgrown (h.nvm.ok.append hn rfl hfits) hle hzero ?_, ⟨⟨rfl, rfl, rfl, ?_⟩, rfl, rfl, rfl⟩,
    fun ho => ho.hold, Evolves.add (h.nvm.ok.eq_none le_rfl) (h.eqOn_below heq₂) fun _ _ => trivial⟩
  · intro x v hge hx
    rcases Layout.set_eq_some hx with ⟨rfl, rfl⟩ | ⟨-, hx⟩
    · exact ⟨hquiet₂, Or.inr trivial⟩
    · rw [h.nvm.ok.eq_none hge] at hx
      exact absurd hx (by simp)
  · intro c hc
    have hlt := h.nvm.lt_nextChunk (h.nvm.base c hc)
    exact heq₂.eqOn (Or.inl (by omega))

end NvmMalloc
