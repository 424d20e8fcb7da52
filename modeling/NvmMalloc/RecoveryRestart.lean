import NvmMalloc.RecoveredHeap

/-!
# A crash during recovery

Reference: `src/nvm_malloc.c` (`nvm_initialize_recovered`, the log loop).

The log loop may itself be cut, and the next process starts on what the cut leaves.  Redoing a header
from any point of its own redo leads to the same header and the same link words, with two exceptions:
the bytes of `on[0].ptr` are cleared one after the other, and a run header loses its `bit_idx` before its
state.  Away from these two places a second recovery ends as the first one would have, up to the `vdata`
and `version` fields of run headers.
-/

namespace NvmMalloc

open Memory CrashM

/-! ## What one entry makes of NVM -/

/-- The byte `x` lies outside the `vdata` and `version` fields of the run headers. -/
def Layout.Kept (L : Layout) (x : ℕ) : Prop := ∀ p k, L p = some (.run k) → ¬ ScanByte p x

/-- The memories agree up to the `vdata` and `version` fields of the run headers. -/
def SameKept (L : Layout) (m m' : Mem) : Prop := ∀ x, L.Kept x → m' x = m x

section

variable {nvmStart p : ℕ} {m m' a b : Mem} {L : Layout} {t : Tile}

/-- A header is its state byte, the rest of the line and the `on` array. -/
theorem HdrFinal.same (ha : HdrFinal nvmStart m' a p) (hb : HdrFinal nvmStart m b p)
    (hoff : ∀ x, L.Kept x → x < 4096 * p ∨ 4096 * p + 64 ≤ x →
      storeWords m' (redoneWords nvmStart m' p blockOn) x =
        storeWords m (redoneWords nvmStart m p blockOn) x)
    (hkeep : ∀ x, 4096 * p + 1 ≤ x → x < 4096 * p + 8 ∨ 4096 * p + 40 ≤ x → x < 4096 * p + 64 →
      m' x = m x)
    (hstate : redoneState (field m' (4096 * p) stateF) = redoneState (field m (4096 * p) stateF))
    (hon : ∀ k < 32, (if Pending m' p then 0 else m' (4096 * p + blockOn + k)) =
      if Pending m p then 0 else m (4096 * p + blockOn + k)) : SameKept L b a := by
  intro x hx
  by_cases hline : 4096 * p ≤ x ∧ x < 4096 * p + 64
  · by_cases hst : x = 4096 * p
    · -- the state byte
      have hbyte : field a (4096 * p) stateF = field b (4096 * p) stateF := by
        rw [ha.state, hb.state, hstate]
      exact eqOn_of_load hbyte x (by simp only [stateF]; omega) (by simp only [stateF]; omega)
    · by_cases hrest : x < 4096 * p + 8 ∨ 4096 * p + 40 ≤ x
      · rw [ha.keep x (by omega) hrest hline.2, hb.keep x (by omega) hrest hline.2]
        exact hkeep x (by omega) hrest hline.2
      · obtain ⟨k, hk, rfl⟩ : ∃ k < 32, x = 4096 * p + blockOn + k :=
          ⟨x - (4096 * p + 8), by omega, by simp only [blockOn]; omega⟩
        rw [ha.on k hk, hb.on k hk]
        exact hon k hk
  · rw [ha.off x (by omega), hb.off x (by omega)]
    exact hoff x hx (by omega)

/-- Bitmaps with the same bits consist of the same bytes. -/
theorem bitmap_eqOn {h : ℕ} (hbits : ∀ j < 64, bitmapBit a h j = bitmapBit b h j) :
    EqOn b a (h + 48) 8 := by
  intro x hx hx'
  obtain ⟨k, hk, rfl⟩ : ∃ k < 8, x = h + (48 + k) := ⟨x - (h + 48), by omega, by omega⟩
  have hfield : field a h (bitmapF k) = field b h (bitmapF k) := by
    refine Nat.eq_of_testBit_eq fun j => ?_
    by_cases hj : j < 8
    · have hbit := hbits (8 * k + j) (by omega)
      unfold bitmapBit at hbit
      rwa [show (8 * k + j) / 8 = k by omega, show (8 * k + j) % 8 = j by omega] at hbit
    · have hbig : 256 ^ 1 ≤ 2 ^ j := by
        rw [show 256 ^ 1 = 2 ^ 8 from rfl]
        exact Nat.pow_le_pow_right (by omega) (by omega)
      rw [Nat.testBit_lt_two_pow ((field_lt a h (bitmapF k)).trans_le hbig),
        Nat.testBit_lt_two_pow ((field_lt b h (bitmapF k)).trans_le hbig)]
  exact eqOn_of_load hfield _ (by simp only [bitmapF]; omega) (by simp only [bitmapF]; omega)

/-- A run header is its state, the element size and arena, `bit_idx`, the `on` array and the bitmap. -/
theorem RunFinal.same {k : ℕ} (hp : L p = some (.run k)) (ha : RunFinal nvmStart m' a p)
    (hb : RunFinal nvmStart m b p)
    (hoff : ∀ x, L.Kept x → x < 4096 * p ∨ 4096 * p + 64 ≤ x →
      storeWords m' (redoneWords nvmStart m' p runOn) x =
        storeWords m (redoneWords nvmStart m p runOn) x)
    (hkeep : ∀ x, 4096 * p + 1 ≤ x → x < 4096 * p + 8 ∨ 4096 * p + 58 ≤ x → x < 4096 * p + 60 →
      m' x = m x)
    (hbits : ∀ j < 64, redoneBit m' (4096 * p) j = redoneBit m (4096 * p) j) : SameKept L b a := by
  intro x hx
  have hscan := hx p k hp
  unfold ScanByte at hscan
  by_cases hline : 4096 * p ≤ x ∧ x < 4096 * p + 64
  · by_cases hst : x < 4096 * p + 1
    · have hbyte : field a (4096 * p) stateF = field b (4096 * p) stateF := ha.state.trans hb.state.symm
      exact eqOn_of_load hbyte x (by simp only [stateF]; omega) (by simp only [stateF]; omega)
    by_cases hrest : x < 4096 * p + 8 ∨ 4096 * p + 58 ≤ x
    · rw [ha.keep x (by omega) hrest (by omega), hb.keep x (by omega) hrest (by omega)]
      exact hkeep x (by omega) hrest (by omega)
    by_cases hon : x < 4096 * p + 48
    · obtain ⟨j, hj, rfl⟩ : ∃ j < 32, x = 4096 * p + runOn + j :=
        ⟨x - (4096 * p + 16), by omega, by simp only [runOn]; omega⟩
      rw [ha.on j hj, hb.on j hj]
    by_cases hbitmap : x < 4096 * p + 56
    · refine bitmap_eqOn (h := 4096 * p) (fun j hj => ?_) x (by omega) (by omega)
      rw [ha.bits j hj, hb.bits j hj]
      exact hbits j hj
    · have hidx : field a (4096 * p) bitIdxF = field b (4096 * p) bitIdxF :=
        ha.bitIdx.trans hb.bitIdx.symm
      exact eqOn_of_load hidx x (by simp only [bitIdxF]; omega) (by simp only [bitIdxF]; omega)
  · rw [ha.off x (by omega), hb.off x (by omega)]
    exact hoff x hx (by omega)

/-- An `on` array that is cleared in part records no link or the old ones, unless `on[0].ptr` is torn. -/
theorem OnCleared.recorded {h on k : ℕ} (hcl : OnCleared m m' h on k)
    (hptr : field m' h (onPtrF on 0) = 0 ∨ field m' h (onPtrF on 0) = field m h (onPtrF on 0)) :
    recordedWords m' h on = [] ∨ recordedWords m' h on = recordedWords m h on := by
  by_cases hzero : field m' h (onPtrF on 0) = 0
  · exact Or.inl (if_pos hzero)
  have hsame := hptr.resolve_left hzero
  -- an array with a pointer left is cleared in its first eight bytes at most
  have hk : k < 8 := by
    by_contra hk
    refine hzero (load_eq_zero fun x hx hx' => ?_)
    simp only [onPtrF] at hx hx'
    obtain ⟨j, rfl⟩ : ∃ j, x = h + on + j := ⟨x - (h + on), by omega⟩
    rw [hcl j (by omega), if_pos (by omega)]
  have hptr0 : EqOn m m' (h + on) 8 := eqOn_of_load hsame
  refine Or.inr (recordedWords_congr fun x hx hx' => ?_)
  by_cases hx8 : x < h + on + 8
  · exact hptr0 x hx hx8
  · obtain ⟨j, rfl⟩ : ∃ j, x = h + on + j := ⟨x - (h + on), by omega⟩
    rw [hcl j (by omega), if_neg (by omega)]

end

/-! ## Points from which the redo of a header can be resumed -/

/-- Redoing the tile `t` on page `p` from `m'` leads where redoing it from `m` leads. -/
structure Resumes (L : Layout) (nvmStart : ℕ) (m m' : Mem) (p : ℕ) (t : Tile) : Prop where
  hdr : HdrOk m' p t
  outside : Pending m' p → Outside (recordedWords m' (4096 * p) t.on) (4096 * p) 64
  expected : Expected m' p
  same : ∀ {a b}, TileFinal nvmStart m' a p t → TileFinal nvmStart m b p t → SameKept L b a

/-- The cut that left `m'` is not inside the clearing of `on[0].ptr`, nor between the stores to `bit_idx`
and to the state. -/
def CleanHeader (m m' : Mem) (p : ℕ) (t : Tile) : Prop :=
  Pending m' p →
    (field m' (4096 * p) (onPtrF t.on 0) = 0 ∨
      field m' (4096 * p) (onPtrF t.on 0) = field m (4096 * p) (onPtrF t.on 0)) ∧
    ((∃ k, t = .run k) → field m' (4096 * p) bitIdxF ≠ bitIdxNone)

/-- What a cut inside the redo of the tile `t` on page `p` makes of `m`: a header that is still in
transition is in the state in which it was, and the redo can be resumed if the cut is clean. -/
structure CutOf (L : Layout) (nvmStart : ℕ) (m m' : Mem) (p : ℕ) (t : Tile) : Prop where
  state : Pending m' p → field m' (4096 * p) stateF = field m (4096 * p) stateF
  resumes : CleanHeader m m' p t → Resumes L nvmStart m m' p t

section

variable {nvmStart p : ℕ} {m m' : Mem} {L : Layout} {t : Tile}

/-- On the header line of a tile only `vdata` and `version` of a run header are not kept. -/
theorem kept_of_line {x : ℕ} (hp : L p = some t) (hlo : 4096 * p ≤ x) (hhi : x < 4096 * p + 64)
    (hscan : (∃ k, t = .run k) → ¬ ScanByte p x) : L.Kept x := by
  intro q k hq hbyte
  have hqp : q = p := by
    unfold ScanByte at hbyte
    omega
  subst hqp
  rw [hp, Option.some.injEq] at hq
  exact hscan ⟨k, hq⟩ hbyte

/-- A redone header is not in transition. -/
theorem not_pending_redoneState {st : ℕ} (hst : field m (4096 * p) stateF = redoneState st) :
    ¬ Pending m p := by
  unfold Pending
  rw [hst]
  unfold redoneState
  split
  · decide
  · split
    · simp only [getState, getUsage, stateInitialized, stateActivating, stateFreeing]
      omega
    · tauto

theorem Pending.congr_state (hst : field m' (4096 * p) stateF = field m (4096 * p) stateF) :
    Pending m' p ↔ Pending m p := by
  rw [Pending, Pending, hst]

/-- The words of a header whose recorded links are as before are redone as before. -/
theorem redoneWords_congr {on : ℕ} (hst : field m' (4096 * p) stateF = field m (4096 * p) stateF)
    (hwords : recordedWords m' (4096 * p) on = recordedWords m (4096 * p) on) :
    redoneWords nvmStart m' p on = redoneWords nvmStart m p on := by
  rw [redoneWords, redoneWords, replayedWords, replayedWords, hwords]
  exact if_congr (Pending.congr_state hst) rfl rfl

/-- A cut before the header line is touched: some of the words are stored. -/
theorem Resumes.of_line (hp : L p = some t) (hhdr : HdrOk m p t) (hexp : Expected m p)
    (hout : Pending m p → Outside (recordedWords m (4096 * p) t.on) (4096 * p) 64)
    (hline : ∀ x, 4096 * p ≤ x → x < 4096 * p + 64 → L.Kept x → m' x = m x)
    (hoff : ∀ x, L.Kept x → x < 4096 * p ∨ 4096 * p + 64 ≤ x →
      ∃ ws, ws ⊆ redoneWords nvmStart m p t.on ∧ m' x = storeWords m ws x) :
    Resumes L nvmStart m m' p t := by
  have hscan : ∀ x, 4096 * p ≤ x → x < 4096 * p + 64 → ¬ ScanByte p x → m' x = m x :=
    fun x hlo hhi hx => hline x hlo hhi (kept_of_line hp hlo hhi fun _ => hx)
  have hfield : ∀ f : NvmField, f.off + f.width ≤ 8 ∨ 16 ≤ f.off ∧ f.off + f.width ≤ 60 →
      field m' (4096 * p) f = field m (4096 * p) f := by
    intro f hf
    refine field_congr fun x hx hx' => hscan x (by omega) (by omega) ?_
    unfold ScanByte
    omega
  have hst := hfield stateF (by decide)
  have hwords : recordedWords m' (4096 * p) t.on = recordedWords m (4096 * p) t.on := by
    refine recordedWords_congr fun x hx hx' => ?_
    have hon : 8 ≤ t.on ∧ t.on ≤ 16 ∧ ((∃ k, t = .run k) → t.on = 16) := by
      cases t <;> simp [Tile.on]
    refine hline x (by omega) (by omega) (kept_of_line hp (by omega) (by omega) fun ht => ?_)
    have := hon.2.2 ht
    unfold ScanByte
    omega
  have hredone : redoneWords nvmStart m' p t.on = redoneWords nvmStart m p t.on :=
    redoneWords_congr hst hwords
  have hstore : ∀ x, L.Kept x → x < 4096 * p ∨ 4096 * p + 64 ≤ x →
      storeWords m' (redoneWords nvmStart m' p t.on) x =
        storeWords m (redoneWords nvmStart m p t.on) x := by
    intro x hx hx'
    obtain ⟨ws, hsub, hm'⟩ := hoff x hx hx'
    rw [hredone]
    exact storeWords_apply_again hsub hm'
  refine ⟨hhdr.scan hscan, fun hpend => ?_, ?_, fun {a b} ha hb => ?_⟩
  · rw [hwords]
    exact hout ((Pending.congr_state hst).mp hpend)
  · unfold Expected
    rwa [hst]
  · have hdr : ∀ {a b}, HdrFinal nvmStart m' a p → HdrFinal nvmStart m b p →
        (∀ k, t ≠ .run k) → t.on = blockOn → SameKept L b a := by
      intro a b ha hb hrun hon
      have hbyte : ∀ x, 4096 * p ≤ x → x < 4096 * p + 64 → m' x = m x := fun x hlo hhi =>
        hline x hlo hhi (kept_of_line hp hlo hhi fun hk => absurd hk.choose_spec (hrun _))
      refine ha.same hb (hon ▸ hstore) (fun x hx _ hx' => hbyte x (by omega) hx') (by rw [hst])
        fun k hk => ?_
      rw [hbyte _ (by simp only [blockOn]; omega) (by simp only [blockOn]; omega)]
      exact if_congr (Pending.congr_state hst) rfl rfl
    cases t with
    | arena => exact absurd ha id
    | stuck n => exact absurd ha id
    | huge n o => exact hdr ha hb (by simp) rfl
    | block n o => exact hdr ha hb (by simp) rfl
    | run k =>
      refine RunFinal.same hp ha hb hstore (fun x hx hx' hx'' => hscan x (by omega) (by omega) ?_)
        fun j hj => ?_
      · unfold ScanByte
        omega
      · have hbit : bitmapBit m' (4096 * p) j = bitmapBit m (4096 * p) j := by
          unfold bitmapBit
          rw [hfield _ (by simp only [bitmapF]; omega)]
        unfold redoneBit
        rw [hst, hfield bitIdxF (by decide), hbit]

/-- The words of a header are stored, and what it still records are these words or none: storing them
again changes nothing. -/
theorem storeWords_again {on x : ℕ}
    (hwords : Pending m' p → recordedWords m' (4096 * p) on = [] ∨
      Pending m p ∧ recordedWords m' (4096 * p) on = recordedWords m (4096 * p) on)
    (hx : m' x = storeWords m (redoneWords nvmStart m p on) x) :
    storeWords m' (redoneWords nvmStart m' p on) x = storeWords m (redoneWords nvmStart m p on) x := by
  by_cases hpend : Pending m' p
  · rcases hwords hpend with hnone | ⟨hpend₀, hsame⟩
    · rw [redoneWords, if_pos hpend, replayedWords, hnone]
      exact hx
    · have hredone : redoneWords nvmStart m' p on = redoneWords nvmStart m p on := by
        rw [redoneWords, redoneWords, if_pos hpend, if_pos hpend₀, replayedWords, replayedWords, hsame]
      rw [hredone]
      exact storeWords_apply_again (fun _ hw => hw) hx
  · rw [redoneWords, if_neg hpend]
    exact hx

/-- What a cut leaves of the recorded links, away from a torn `on[0].ptr`. -/
theorem OnCleared.words {k : ℕ} (hcl : OnCleared m m' (4096 * p) t.on k) (hclean : CleanHeader m m' p t)
    (hpend₀ : Pending m' p → Pending m p) (hpend : Pending m' p) :
    recordedWords m' (4096 * p) t.on = [] ∨
      Pending m p ∧ recordedWords m' (4096 * p) t.on = recordedWords m (4096 * p) t.on := by
  rcases hcl.recorded (hclean hpend).1 with hnone | hsame
  · exact Or.inl hnone
  · exact Or.inr ⟨hpend₀ hpend, hsame⟩

/-- What is still recorded lies where all the words lie. -/
theorem outside_of_words (hout : Pending m p → Outside (recordedWords m (4096 * p) t.on) (4096 * p) 64)
    (hwords : recordedWords m' (4096 * p) t.on = [] ∨
      Pending m p ∧ recordedWords m' (4096 * p) t.on = recordedWords m (4096 * p) t.on) :
    Outside (recordedWords m' (4096 * p) t.on) (4096 * p) 64 := by
  rcases hwords with hnone | ⟨hpend, hsame⟩
  · rw [hnone]
    exact fun x hx => absurd hx List.not_mem_nil
  · rw [hsame]
    exact hout hpend

/-- A cut while a block or huge header is settled: the words are stored, the `on` array is being cleared
or the header is final. -/
theorem Resumes.of_hdr {n k st : ℕ} {o : Owner} (ht : t = .huge n o ∨ t = .block n o)
    (hhdr : HdrOk m p t) (hpend : Pending m p)
    (hout : Pending m p → Outside (recordedWords m (4096 * p) t.on) (4096 * p) 64)
    (hs : HdrStage m (4096 * p) (redoneWords nvmStart m p blockOn) st m')
    (hcl : OnCleared m m' (4096 * p) blockOn k)
    (hst : st = field m (4096 * p) stateF ∨ st = redoneState (field m (4096 * p) stateF) ∧ 32 ≤ k)
    (hclean : CleanHeader m m' p t) : Resumes L nvmStart m m' p t := by
  have hon : t.on = blockOn := by rcases ht with rfl | rfl <;> rfl
  rw [← hon] at hcl
  have hwords := hcl.words hclean fun _ => hpend
  have hredone : redoneState (field m' (4096 * p) stateF) = redoneState (field m (4096 * p) stateF) := by
    rw [hs.state]
    rcases hst with rfl | ⟨rfl, -⟩
    · rfl
    · exact redoneState_redoneState
  -- the state is that of a header being redone, or final
  have hok : HdrOk m' p t ∧ Expected m' p := by
    unfold Expected
    rw [hs.state]
    unfold Pending at hpend
    rcases ht with rfl | rfl
    · have hall := (show ∀ x ∈ [usageFree + stateInitialized, usageHuge + stateInitializing,
        usageHuge + stateInitialized, usageHuge + stateFreeing, usageHuge + stateActivating],
        getState x = stateFreeing ∨ getState x = stateActivating → ∀ y ∈ [x, redoneState x],
          y ∈ [usageFree + stateInitialized, usageHuge + stateInitializing,
            usageHuge + stateInitialized, usageHuge + stateFreeing, usageHuge + stateActivating] ∧
          y ∉ [0, usageFree + stateInitializing, usageHuge + stateInitializing] by decide) _ hhdr.2 hpend
        st (by rcases hst with rfl | ⟨rfl, -⟩ <;> simp)
      exact ⟨⟨(hs.field_eq (by decide)).trans hhdr.1, hs.state ▸ hall.1⟩, hall.2⟩
    · have hall := (show ∀ x ∈ [0, usageFree + stateInitializing, usageFree + stateInitialized,
        usageBlock + stateInitialized, usageBlock + stateFreeing, usageBlock + stateActivating],
        getState x = stateFreeing ∨ getState x = stateActivating → ∀ y ∈ [x, redoneState x],
          y ∈ [0, usageFree + stateInitializing, usageFree + stateInitialized,
            usageBlock + stateInitialized, usageBlock + stateFreeing, usageBlock + stateActivating] ∧
          y ∉ [0, usageFree + stateInitializing, usageHuge + stateInitializing] by decide) _
          hhdr.2.2 hpend
        st (by rcases hst with rfl | ⟨rfl, -⟩ <;> simp)
      exact ⟨⟨(hs.field_eq (by decide)).trans hhdr.1, (hs.field_eq (by decide)).trans_lt hhdr.2.1,
        hs.state ▸ hall.1⟩, hall.2⟩
  have hsame : ∀ {a b}, HdrFinal nvmStart m' a p → HdrFinal nvmStart m b p → SameKept L b a := by
    intro a b ha hb
    rw [hon] at hwords hcl
    refine ha.same hb (fun x _ hx => storeWords_again hwords (hs.off x hx)) hs.keep hredone
      fun j hj => ?_
    rw [if_pos hpend]
    split
    · rfl
    · rename_i hnot
      rcases hst with rfl | ⟨-, hk⟩
      · exact absurd ((Pending.congr_state hs.state).mpr hpend) hnot
      · rw [hcl j hj, if_pos (by omega)]
  refine ⟨hok.1, fun hpend' => outside_of_words hout (hwords hpend'), hok.2, fun {a b} ha hb => ?_⟩
  rcases ht with rfl | rfl
  · exact hsame ha hb
  · exact hsame ha hb

/-- A cut while a run header is redone, after its words are stored and its bit is in place. -/
theorem Resumes.of_run {k n : ℕ} (hp : L p = some (.run k)) (hhdr : HdrOk m p (.run k))
    (hout : Pending m p → Outside (recordedWords m (4096 * p) runOn) (4096 * p) 64)
    (hoff : EqOff (storeWords m (redoneWords nvmStart m p runOn)) m' (4096 * p) 64)
    (hkeep : ∀ x, 4096 * p + 1 ≤ x → x < 4096 * p + 8 ∨ 4096 * p + 58 ≤ x → x < 4096 * p + 60 →
      m' x = m x)
    (hbits : ∀ j < 64, bitmapBit m' (4096 * p) j = redoneBit m (4096 * p) j)
    (hcl : OnCleared m m' (4096 * p) runOn n)
    (hstate : field m' (4096 * p) stateF = field m (4096 * p) stateF ∨
      field m' (4096 * p) stateF = usageRun + stateInitialized)
    (hidx : field m' (4096 * p) bitIdxF = field m (4096 * p) bitIdxF ∨
      field m' (4096 * p) bitIdxF = bitIdxNone)
    (hclean : CleanHeader m m' p (.run k)) : Resumes L nvmStart m m' p (.run k) := by
  -- a header that is still in transition has its state and its index
  have hsame : Pending m' p → field m' (4096 * p) stateF = field m (4096 * p) stateF ∧
      field m' (4096 * p) bitIdxF = field m (4096 * p) bitIdxF := by
    intro hpend
    refine ⟨hstate.resolve_right fun hst => ?_, hidx.resolve_right ((hclean hpend).2 ⟨k, rfl⟩)⟩
    unfold Pending at hpend
    rw [hst] at hpend
    exact absurd hpend (by decide)
  have hpend₀ : Pending m' p → Pending m p :=
    fun hpend => (Pending.congr_state (hsame hpend).1).mp hpend
  have hwords := OnCleared.words (t := .run k) hcl hclean hpend₀
  have hredone : ∀ j < 64, redoneBit m' (4096 * p) j = redoneBit m (4096 * p) j := by
    intro j hj
    by_cases hpend : Pending m' p
    · obtain ⟨hst, hix⟩ := hsame hpend
      rw [redoneBit, hbits j hj, hst, hix, redoneBit]
      split
      · rfl
      · split <;> rfl
    · rw [redoneBit_of_not_pending hpend]
      exact hbits j hj
  obtain ⟨hrun, hst, hlt⟩ := hhdr
  have hfield : ∀ f : NvmField, 1 ≤ f.off → f.off + f.width ≤ 8 ∨ 58 ≤ f.off → f.off + f.width ≤ 60 →
      field m' (4096 * p) f = field m (4096 * p) f := fun f hlo hmid hhi =>
    field_congr fun x hx hx' => hkeep x (by omega) (by omega) (by omega)
  have hbytes := hfield nBytesF (by decide) (by decide) (by decide)
  have hst' : field m' (4096 * p) stateF ∈ [usageRun + stateInitialized, usageRun + statePrefree,
      usageRun + stateFreeing, usageRun + statePreactivate, usageRun + stateActivating] := by
    rcases hstate with heq | heq
    · rwa [heq]
    · rw [heq]
      decide
  refine ⟨⟨?_, hst', fun hcommitted => ?_⟩, fun hpend => ?_, fun hmem => ?_, fun {a b} ha hb => ?_⟩
  · unfold RunHdr at hrun ⊢
    rwa [hbytes, hfield runArenaIdF (by decide) (by decide) (by decide)]
  · have hpend : Pending m' p := by
      unfold Pending
      rcases hcommitted with heq | heq <;> rw [heq] <;> decide
    obtain ⟨hsts, hix⟩ := hsame hpend
    rw [hsts] at hcommitted
    rw [hix, hbytes]
    exact hlt hcommitted
  · exact outside_of_words (t := .run k) hout (hwords hpend)
  · simp only [List.mem_cons, List.not_mem_nil, or_false] at hst'
    rcases hst' with heq | heq | heq | heq | heq <;> rw [heq] at hmem <;> exact absurd hmem (by decide)
  · exact RunFinal.same hp ha hb (fun x _ hx => storeWords_again hwords (hoff x hx)) hkeep hredone

end

/-! ## Cuts inside one entry -/

section

variable {C : Nvm → Prop} {Q : Unit → World → Prop} {E : Stop → Prop} {w : World} {p : ℕ}
  {L : Layout} {t : Tile}

/-- A header that is being redone is one the log loop expects. -/
theorem HdrOk.expected {m : Mem} (hhdr : HdrOk m p t) (hunstuck : ∀ n, t ≠ .stuck n)
    (hpend : Pending m p) : Expected m p := by
  cases t with
  | arena =>
    intro hmem
    have hall := (show ∀ st ∈ [0, usageFree + stateInitializing, usageHuge + stateInitializing],
      getState st ≠ stateFreeing ∧ getState st ≠ stateActivating by decide) _ hmem
    exact hpend.elim hall.1 hall.2
  | stuck n => exact absurd rfl (hunstuck n)
  | huge n o => exact hhdr.hugeState.2.2.2.2.mpr (hpend.imp_right Or.inl)
  | block n o => exact hhdr.blockState.2.2.2.2.mpr (hpend.imp_right Or.inl)
  | run k =>
    exact (show ∀ st ∈ [usageRun + stateInitialized, usageRun + statePrefree, usageRun + stateFreeing,
      usageRun + statePreactivate, usageRun + stateActivating],
      st ∉ [0, usageFree + stateInitializing, usageHuge + stateInitializing] by decide) _ hhdr.2.1

/-- What a store of the redo leaves is a cut of it. -/
theorem RedoCut.cutOf {nvmStart : ℕ} {m m' : Mem} (h : RedoCut nvmStart m p t m') (hp : L p = some t)
    (hunstuck : ∀ n, t ≠ .stuck n) (hhdr : HdrOk m p t)
    (hout : Pending m p → Outside (recordedWords m (4096 * p) t.on) (4096 * p) 64) :
    CutOf L nvmStart m m' p t := by
  cases h with
  | @words ws hpend hws hm' =>
    subst hm'
    have hreplayed : Outside (replayedWords nvmStart m (4096 * p) t.on) (4096 * p) 64 :=
      outside_replayedWords (hout hpend)
    have hline : Outside ws (4096 * p) 64 := fun y hy => hreplayed y (hws hy)
    refine ⟨fun _ => field_eqOn (hline.eqOn m) (by decide), fun _ => Resumes.of_line hp hhdr
      (hhdr.expected hunstuck hpend) hout (fun x hlo hhi _ => hline.eqOn m x hlo hhi)
      fun _ _ _ => ⟨_, ?_, rfl⟩⟩
    rw [redoneWords, if_pos hpend]
    exact hws
  | header ht hpend hs hcl hst =>
    refine ⟨fun hpend' => ?_, Resumes.of_hdr ht hhdr hpend hout hs hcl hst⟩
    rw [hs.state]
    refine hst.resolve_right fun hfinal => ?_
    exact not_pending_redoneState (hs.state.trans hfinal.1) hpend'
  | @run k n m₁ ht hm₁ hs =>
    subst ht
    have hcl : OnCleared m m' (4096 * p) runOn n := by
      intro j hj
      rw [hs.on j hj, hm₁.line hout (by simp only [runOn]; omega) (by simp only [runOn]; omega)
        (by simp only [runOn]; omega)]
    have hstate := hs.state
    have hidx := hs.bitIdx
    rw [hm₁.field_eq hout (by decide)] at hstate hidx
    refine ⟨fun hpend => hstate.resolve_right fun hst => ?_, fun hclean => ?_⟩
    · unfold Pending at hpend
      rw [hst] at hpend
      exact absurd hpend (by decide)
    refine Resumes.of_run hp hhdr hout (EqOff.trans (hm₁.off.mono (by omega) (by omega)) hs.off)
      (fun x hlo hmid hhi => ?_) (fun j hj => ?_) hcl hstate hidx hclean
    · rw [hs.keep x (by omega)]
      exact hm₁.line hout (by omega) (by omega) (by omega)
    · rw [← hm₁.bits j hj]
      exact bitmapBit_congr (fun x hx hx' => hs.keep x (by omega)) hj

/-- **One entry of the log loop, with its cuts.** -/
theorem recoverLogEntry_cuts {i x : ℕ} (hx : w.nvm.log i = x) (hne : x ≠ 0) (hnames : Names x p t)
    (hp : L p = some t) (hunstuck : ∀ n, t ≠ .stuck n) (hfits : t.Fits p) (hhdr : HdrOk w.nvm.mem p t)
    (hout : Pending w.nvm.mem p → Outside (recordedWords w.nvm.mem (4096 * p) t.on) (4096 * p) 64)
    (hC : ∀ m', CutOf L w.nvmStart w.nvm.mem m' p t → C { w.nvm with mem := m' })
    (hdone : ∀ m', TileFinal w.nvmStart w.nvm.mem m' p t → Expected w.nvm.mem p →
      C { w.nvm with mem := m', log := Function.update w.nvm.log i 0 })
    (hE : ¬ Expected w.nvm.mem p → E .assertFailed)
    (hQ : ∀ w' m', TileFinal w.nvmStart w.nvm.mem m' p t → Expected w.nvm.mem p →
      w'.nvm = { w.nvm with mem := m', log := Function.update w.nvm.log i 0 } →
      w'.nvmStart = w.nvmStart → Q () w') :
    Spec (recoverLogEntry i) C Q E w := by
  refine Located.spec (recoverLogEntry_located hx hne hnames hfits hhdr hout (fun _ hcut => ?_)
    (fun n ht => absurd ht (hunstuck n)) hE (fun n ht => absurd ht (hunstuck n)) fun w' hproc hexp => ?_)
  · exact onImage_store.mpr (hC _ (hcut.cutOf hp hunstuck hhdr hout))
  · rw [onImage_storeMeta, hproc.nvm]
    exact ⟨hdone _ hproc.final hexp, hQ _ _ hproc.final hexp rfl hproc.nvmStart⟩

end

/-! ## The loop -/

/-- The log loop on `img` comes to entry `i` in state `w`. -/
def LogVisits (P : Process) (img : Nvm) (i : ℕ) (w : World) : Prop :=
  (forRange recoverLogEntry 0 i (logStart P img)).2 = .ok ((), w)

/-- Two states of the log loop that differ in volatile data and in `vdata` and `version` of run headers
only. -/
structure Twin (L : Layout) (w w' : World) : Prop where
  mem : SameKept L w.nvm.mem w'.nvm.mem
  log : w'.nvm.log = w.nvm.log
  nextChunk : w'.nvm.nextChunk = w.nvm.nextChunk
  nvmStart : w'.nvmStart = w.nvmStart

section

variable {P P' : Process} {L : Layout} {p₀ p i j : ℕ} {t : Tile} {img img' : Nvm} {w w' w₁ : World}

theorem logVisits_succ : LogVisits P img (i + 1) w₁ ↔
    ∃ w, LogVisits P img i w ∧ (recoverLogEntry i w).2 = .ok ((), w₁) := by
  unfold LogVisits
  rw [forRange_succ, bind_result, Nat.zero_add]
  exact ⟨fun ⟨_, w, h⟩ => ⟨w, h⟩, fun ⟨w, h⟩ => ⟨(), w, h⟩⟩

theorem LogVisits.unique (h : LogVisits P img i w) (h' : LogVisits P img i w') : w' = w := by
  unfold LogVisits at h h'
  rw [h] at h'
  simp only [Except.ok.injEq, Prod.mk.injEq, true_and] at h'
  exact h'.symm

/-- A loop that comes to an entry has come to all entries before it. -/
theorem LogVisits.before (h : LogVisits P img j w) (hij : i ≤ j) : ∃ w', LogVisits P img i w' := by
  induction j generalizing w with
  | zero =>
    obtain rfl : i = 0 := by omega
    exact ⟨w, h⟩
  | succ j ih =>
    by_cases hi : i = j + 1
    · exact ⟨w, hi ▸ h⟩
    · obtain ⟨w', hw', -⟩ := logVisits_succ.mp h
      exact ih hw' (by omega)

theorem LogVisits.inv (h : LogVisits P img i w) (himg : ImgInv L p₀ img) (hclear : WordsClear L img)
    (hi : i ≤ maxLogEntries) : LogInv P L p₀ img i w :=
  (logLoop_located himg hclear logInv_start hi).result h

/-- The loop skips the entries that are empty from the start. -/
theorem logVisits_of_empty (hlog : ∀ j < i, img.log j = 0) : LogVisits P img i (logStart P img) :=
  forRange_recoverLogEntry_of_empty fun j hj => hlog j (by omega)

/-- What an entry of the loop names. -/
structure EntryNames (L : Layout) (w : World) (i p : ℕ) (t : Tile) : Prop where
  tile : L p = some t
  ne : w.nvm.log i ≠ 0
  names : Names (w.nvm.log i) p t
  unstuck : ∀ n, t ≠ .stuck n
  fits : t.Fits p
  hdr : HdrOk w.nvm.mem p t
  outside : Pending w.nvm.mem p → Outside (recordedWords w.nvm.mem (4096 * p) t.on) (4096 * p) 64

theorem LogInv.entryNames (h : LogInv P L p₀ img i w) (himg : ImgInv L p₀ img)
    (hclear : WordsClear L img)
    (hunstuck : ∀ p n, L p ≠ some (.stuck n)) (hi : i < maxLogEntries) (hne : w.nvm.log i ≠ 0) :
    ∃ p t, EntryNames L w i p t := by
  have hlog : w.nvm.log i = img.log i := by rw [h.log, if_neg (by omega)]
  obtain ⟨p, t, hp, hnames⟩ := himg.log i hi (hlog ▸ hne)
  refine ⟨p, t, hp, hne, hlog ▸ hnames, fun n hn => hunstuck p n (hn ▸ hp), himg.ok.fits hp,
    h.hdrOk himg hp, fun hpend => ?_⟩
  rw [h.recordedWords_eq himg hp hpend]
  exact hclear hp ⟨i, hi, hlog ▸ hne, hnames.page⟩ (h.pending himg hp hpend).2.2 hp

/-- What an entry that is dealt with has made of NVM. -/
theorem EntryNames.result (h : EntryNames L w i p t) (hrun : (recoverLogEntry i w).2 = .ok ((), w₁)) :
    ∃ m₁, TileFinal w.nvmStart w.nvm.mem m₁ p t ∧ Expected w.nvm.mem p ∧
      w₁.nvm = { w.nvm with mem := m₁, log := Function.update w.nvm.log i 0 } ∧
      w₁.nvmStart = w.nvmStart :=
  Spec.result (C := fun _ => True) (E := fun _ => True)
    (Q := fun _ w' => ∃ m₁, TileFinal w.nvmStart w.nvm.mem m₁ p t ∧ Expected w.nvm.mem p ∧
      w'.nvm = { w.nvm with mem := m₁, log := Function.update w.nvm.log i 0 } ∧
      w'.nvmStart = w.nvmStart)
    (recoverLogEntry_cuts (L := L) rfl h.ne h.names h.tile h.unstuck h.fits h.hdr h.outside
      (fun _ _ => trivial) (fun _ _ _ => trivial) (fun _ => trivial)
      fun _ m₁ hm₁ hexp hnvm hstart => ⟨m₁, hm₁, hexp, hnvm, hstart⟩) hrun

/-- **An entry whose redo is resumed leads where its redo leads.** -/
theorem Resumes.step (h : Resumes L w.nvmStart w.nvm.mem w'.nvm.mem p t) (hname : EntryNames L w i p t)
    (hlog : w'.nvm.log = w.nvm.log) (hnext : w'.nvm.nextChunk = w.nvm.nextChunk)
    (hstart : w'.nvmStart = w.nvmStart) (hrun : (recoverLogEntry i w).2 = .ok ((), w₁)) :
    ∃ w₁', (recoverLogEntry i w').2 = .ok ((), w₁') ∧ Twin L w₁ w₁' := by
  obtain ⟨m₁, hm₁, -, hnvm₁, hstart₁⟩ := hname.result hrun
  have hspec : Spec (recoverLogEntry i) (fun _ => True) (fun _ w₁' => Twin L w₁ w₁') (fun _ => False)
      w' := by
    refine recoverLogEntry_cuts (L := L) rfl (hlog ▸ hname.ne) (hlog ▸ hname.names) hname.tile
      hname.unstuck hname.fits h.hdr h.outside (fun _ _ => trivial) (fun _ _ _ => trivial)
      (fun hnot => hnot h.expected) fun w₁' m₁' hm₁' _ hnvm₁' hstart₁' => ?_
    rw [hstart] at hm₁'
    refine ⟨?_, ?_, ?_, by rw [hstart₁', hstart, hstart₁]⟩
    · rw [hnvm₁, hnvm₁']
      exact h.same hm₁' hm₁
    · rw [hnvm₁, hnvm₁', hlog]
    · rw [hnvm₁, hnvm₁']
      exact hnext
  obtain ⟨_, w₁', hret, htwin⟩ := hspec.returns
  exact ⟨w₁', hret, htwin⟩

/-- **One entry of two twin loops.** -/
theorem Twin.step (h : Twin L w w') (hinv : LogInv P L p₀ img i w) (himg : ImgInv L p₀ img)
    (hclear : WordsClear L img) (hunstuck : ∀ p n, L p ≠ some (.stuck n)) (hi : i < maxLogEntries)
    (hrun : (recoverLogEntry i w).2 = .ok ((), w₁)) :
    ∃ w₁', (recoverLogEntry i w').2 = .ok ((), w₁') ∧ Twin L w₁ w₁' := by
  by_cases hne : w.nvm.log i = 0
  · rw [recoverLogEntry_empty hne] at hrun
    simp only [Except.ok.injEq, Prod.mk.injEq, true_and] at hrun
    exact ⟨w', recoverLogEntry_empty (h.log ▸ hne), hrun ▸ h⟩
  · obtain ⟨p, t, hname⟩ := hinv.entryNames himg hclear hunstuck hi hne
    obtain ⟨m₁, -, hexp, -⟩ := hname.result hrun
    have hres : Resumes L w.nvmStart w.nvm.mem w'.nvm.mem p t :=
      Resumes.of_line hname.tile hname.hdr hexp hname.outside (fun x _ _ hx => h.mem x hx)
        fun x hx _ => ⟨[], List.nil_subset _, h.mem x hx⟩
    exact hres.step hname h.log h.nextChunk h.nvmStart hrun

/-- What a cut inside an entry leaves: a header whose redo can be resumed, or the entry is done. -/
theorem EntryNames.cut (h : EntryNames L w i p t) (hrun : (recoverLogEntry i w).2 = .ok ((), w₁))
    {e : Event} (he : e ∈ (recoverLogEntry i w).1) (himg : e.image? = some img') :
    (img' = { w.nvm with mem := img'.mem } ∧ CutOf L w.nvmStart w.nvm.mem img'.mem p t) ∨
      SameKept L w₁.nvm.mem img'.mem ∧ img'.log = w₁.nvm.log ∧ img'.nextChunk = w₁.nvm.nextChunk := by
  obtain ⟨m₁, hm₁, hexp, hnvm₁, -⟩ := h.result hrun
  have hself : Resumes L w.nvmStart w.nvm.mem w.nvm.mem p t :=
    Resumes.of_line h.tile h.hdr hexp h.outside (fun _ _ _ _ => rfl)
      fun _ _ _ => ⟨[], List.nil_subset _, rfl⟩
  have hspec : Spec (recoverLogEntry i) (fun img' =>
      (img' = { w.nvm with mem := img'.mem } ∧ CutOf L w.nvmStart w.nvm.mem img'.mem p t) ∨
        SameKept L w₁.nvm.mem img'.mem ∧ img'.log = w₁.nvm.log ∧ img'.nextChunk = w₁.nvm.nextChunk)
      (fun _ _ => True) (fun _ => True) w := by
    refine recoverLogEntry_cuts rfl h.ne h.names h.tile h.unstuck h.fits h.hdr h.outside
      (fun m' hm' => Or.inl ⟨rfl, hm'⟩) (fun m' hm' _ => Or.inr ?_) (fun _ => trivial)
      fun _ _ _ _ _ _ => trivial
    rw [hnvm₁]
    exact ⟨hself.same hm' hm₁, rfl, rfl⟩
  exact hspec.1 e he img' himg

end

/-! ## Two recoveries side by side -/

/-- The replay of entry `i` in state `w` uses a `bit_idx` below `n_max`. -/
def IndexOk (w : World) (i : ℕ) : Prop :=
  w.nvm.log i ≠ 0 → identifyUsage w.nvm.mem (w.nvm.log i) = some .run →
    Pending w.nvm.mem (w.nvm.log i / 4096) →
    field w.nvm.mem (4096 * (w.nvm.log i / 4096)) bitIdxF <
      slotsPerRun (field w.nvm.mem (4096 * (w.nvm.log i / 4096)) nBytesF)

/-- The second crash image `img'` is not left in the middle of the two places from which a header cannot
be redone: `on[0].ptr` is clear or as the first crash left it, and a run header in a committed state has
its `bit_idx`. -/
def CleanCut (img img' : Nvm) : Prop :=
  ∀ i < maxLogEntries, img'.log i ≠ 0 → Pending img'.mem (img'.log i / 4096) →
    (field img'.mem (4096 * (img'.log i / 4096)) (onPtrF (onAt img'.mem (img'.log i / 4096)) 0) = 0 ∨
      field img'.mem (4096 * (img'.log i / 4096)) (onPtrF (onAt img'.mem (img'.log i / 4096)) 0) =
        field img.mem (4096 * (img'.log i / 4096)) (onPtrF (onAt img'.mem (img'.log i / 4096)) 0)) ∧
    (usageAt img'.mem (img'.log i / 4096) = usageRun →
      field img'.mem (4096 * (img'.log i / 4096)) bitIdxF ≠ bitIdxNone)

instance (img img' : Nvm) : Decidable (CleanCut img img') :=
  inferInstanceAs (Decidable (∀ i < maxLogEntries, img'.log i ≠ 0 →
    Pending img'.mem (img'.log i / 4096) → (_ ∨ _) ∧ (_ → _)))

/-- Where the second log loop takes up the work of the first one: between two entries, or inside one. -/
inductive ResumePoint (L : Layout) (P P' : Process) (img img' : Nvm) (i : ℕ) : Prop where
  | between {w : World} (hv : LogVisits P img i w) (htwin : Twin L w (logStart P' img'))
  | inside {w : World} {p : ℕ} {t : Tile} (hv : LogVisits P img i w) (hi : i < maxLogEntries)
      (hname : EntryNames L w i p t) (hres : Resumes L w.nvmStart w.nvm.mem img'.mem p t)
      (hlog : img'.log = w.nvm.log) (hnext : img'.nextChunk = w.nvm.nextChunk)

section

variable {P P' : Process} {L : Layout} {p₀ p i j : ℕ} {t : Tile} {img img' : Nvm} {w w' w₁ : World}

/-- Without an entry nothing is stored. -/
theorem recoverLogEntry_stores_nothing (hlog : w.nvm.log i = 0) : (recoverLogEntry i w).1 = [] := by
  refine List.eq_nil_iff_forall_not_mem.mpr fun e he => ?_
  unfold recoverLogEntry at he
  rcases mem_bind.mp he with he | ⟨w', w'', hget, he⟩
  · exact absurd he List.not_mem_nil
  · have hw : w = w' ∧ w = w'' := by
      have hok : Except.ok (w, w) = (.ok (w', w'') : Except Stop (World × World)) := hget
      simpa only [Except.ok.injEq, Prod.mk.injEq] using hok
    rw [← hw.1, ← hw.2, if_pos hlog] at he
    exact absurd he List.not_mem_nil

/-- A clean image is clean at the header that the cut has left unfinished. -/
theorem CleanCut.header (h : CleanCut img img') (hinv : LogInv P L p₀ img i w) (himg : ImgInv L p₀ img)
    (hi : i < maxLogEntries) (hname : EntryNames L w i p t) (hlog : img'.log = w.nvm.log)
    (hcut : CutOf L w.nvmStart w.nvm.mem img'.mem p t) : CleanHeader w.nvm.mem img'.mem p t := by
  intro hpend
  have hst := hcut.state hpend
  have heq := (hinv.pending himg hname.tile ((Pending.congr_state hst).mp hpend)).2.1
  have husage : usageAt img'.mem p = usageAt w.nvm.mem p := by
    unfold usageAt
    rw [hst]
  have hon : onAt img'.mem p = t.on := by
    rw [← hname.hdr.onAt_eq hname.unstuck, onAt, onAt, husage]
  have hpage : img'.log i / 4096 = p := by rw [hlog, hname.names.page]
  have hthis := h i hi (hlog ▸ hname.ne)
  rw [hpage, hon, husage] at hthis
  have honF : t.on + 32 ≤ 64 := by cases t <;> simp [Tile.on]
  rw [field_eqOn (f := onPtrF t.on 0) heq (by simp only [onPtrF]; omega)]
  exact ⟨(hthis hpend).1, fun ht => (hthis hpend).2 ((hname.hdr.usage hname.unstuck).2.mpr ht)⟩

/-- **Every clean cut of the log loop is a point from which the second loop can go on.** -/
theorem exists_resumePoint (himg : ImgInv L p₀ img) (hclear : WordsClear L img)
    (hunstuck : ∀ p n, L p ≠ some (.stuck n)) (hstart : P'.nvmStart = P.nvmStart)
    (hfull : LogVisits P img maxLogEntries w) (hcut : img' ∈ cuts logLoop (logStart P img))
    (hclean : CleanCut img img') :
    img'.nextChunk = img.nextChunk ∧
      ∃ i ≤ maxLogEntries, ResumePoint L P P' img img' i ∧ ∀ j < i, img'.log j = 0 := by
  rcases List.mem_cons.mp hcut with rfl | hcut
  · exact ⟨rfl, 0, Nat.zero_le _, .between rfl ⟨fun _ _ => rfl, rfl, rfl, hstart⟩,
      fun j hj => absurd hj (Nat.not_lt_zero j)⟩
  obtain ⟨e, he, hevent⟩ := List.mem_filterMap.mp hcut
  obtain ⟨k, w, hk, hv, he⟩ := mem_forRange he
  rw [Nat.zero_add] at he
  have hv : LogVisits P img k w := hv
  have hinv := hv.inv himg hclear (by omega)
  -- the first loop gets through this entry
  obtain ⟨w₁, hv₁⟩ := hfull.before (i := k + 1) hk
  obtain ⟨w', hv', hrun⟩ := logVisits_succ.mp hv₁
  obtain rfl := hv.unique hv'
  have hinv₁ := hv₁.inv himg hclear hk
  have hne : w'.nvm.log k ≠ 0 := fun hzero => by
    rw [recoverLogEntry_stores_nothing hzero] at he
    exact absurd he List.not_mem_nil
  obtain ⟨p, t, hname⟩ := hinv.entryNames himg hclear hunstuck hk hne
  rcases hname.cut hrun he hevent with ⟨himg', hcutOf⟩ | ⟨hmem, hlog, hnext⟩
  · have hlog : img'.log = w'.nvm.log := by rw [himg']
    have hnext : img'.nextChunk = w'.nvm.nextChunk := by rw [himg']
    refine ⟨hnext.trans hinv.nextChunk, k, by omega, .inside hv hk hname
      (hcutOf.resumes (hclean.header hinv himg hk hname hlog hcutOf)) hlog hnext, fun j hj => ?_⟩
    rw [hlog, hinv.log j, if_pos hj]
  · refine ⟨hnext.trans hinv₁.nextChunk, k + 1, hk, .between hv₁ ⟨hmem, hlog, hnext, ?_⟩, fun j hj => ?_⟩
    · rw [hinv₁.nvmStart]
      exact hstart
    · rw [hlog, hinv₁.log j, if_pos hj]

/-- The two loops come to entry `j` in twin states. -/
def Follows (L : Layout) (P P' : Process) (img img' : Nvm) (j : ℕ) : Prop :=
  ∃ w w', LogVisits P img j w ∧ LogVisits P' img' j w' ∧ Twin L w w'

theorem Follows.run (h : Follows L P P' img img' i) (himg : ImgInv L p₀ img) (hclear : WordsClear L img)
    (hunstuck : ∀ p n, L p ≠ some (.stuck n)) (hfull : LogVisits P img maxLogEntries w) (hij : i ≤ j)
    (hj : j ≤ maxLogEntries) : Follows L P P' img img' j := by
  induction j, hij using Nat.le_induction with
  | base => exact h
  | succ j _ ih =>
    obtain ⟨w, w', hv, hv', htwin⟩ := ih (by omega)
    obtain ⟨w₁, hv₁⟩ := hfull.before hj
    obtain ⟨v, hvv, hrun⟩ := logVisits_succ.mp hv₁
    obtain rfl := hv.unique hvv
    obtain ⟨w₁', hrun', htwin₁⟩ := htwin.step (hv.inv himg hclear (by omega)) himg hclear hunstuck
      hj hrun
    exact ⟨w₁, w₁', hv₁, logVisits_succ.mpr ⟨w', hv', hrun'⟩, htwin₁⟩

/-- The headers of twin states are in order together. -/
theorem Twin.hdrOk (h : Twin L w w') (hp : L p = some t) (hhdr : HdrOk w.nvm.mem p t) :
    HdrOk w'.nvm.mem p t :=
  hhdr.scan fun x hlo hhi hx => h.mem x (kept_of_line hp hlo hhi fun _ => hx)

/-- The index of a run header in order is one of its run. -/
theorem indexOk_of_hdrOk (hnames : Names (w.nvm.log i) p t) (hunstuck : ∀ n, t ≠ .stuck n)
    (hfits : t.Fits p) (hhdr : HdrOk w.nvm.mem p t) : IndexOk w i := by
  intro hne hrun hpend
  rw [hnames.page] at hpend ⊢
  cases t with
  | arena => exact absurd hnames id
  | stuck n => exact absurd rfl (hunstuck n)
  | huge n o =>
    simp only [Names] at hnames
    simp only [Tile.Fits] at hfits
    rw [identifyUsage, if_pos (by simp only [chunkSize, headerSize]; omega)] at hrun
    exact absurd hrun (by decide)
  | block n o =>
    simp only [Names] at hnames
    simp only [Tile.Fits] at hfits
    rw [hnames, identifyUsage_page _ hfits.1] at hrun
    have hst := hhdr.2.2
    unfold Pending at hpend
    simp only [List.mem_cons, List.not_mem_nil, or_false] at hst
    rcases hst with hst | hst | hst | hst | hst | hst <;> rw [hst] at hpend hrun <;>
      simp at hpend hrun
  | run k =>
    refine hhdr.2.2 ?_
    have hst := hhdr.2.1
    unfold Pending at hpend
    simp only [List.mem_cons, List.not_mem_nil, or_false] at hst
    rcases hst with hst | hst | hst | hst | hst <;> rw [hst] at hpend ⊢ <;> simp at hpend ⊢

/-- The entries of twin states name the same tiles. -/
theorem Follows.indexOk (h : Follows L P P' img img' i) (himg : ImgInv L p₀ img)
    (hclear : WordsClear L img) (hunstuck : ∀ p n, L p ≠ some (.stuck n)) (hi : i < maxLogEntries)
    (hv' : LogVisits P' img' i w') : IndexOk w' i := by
  obtain ⟨w, v, hv, hvv, htwin⟩ := h
  obtain rfl := hvv.unique hv'
  intro hne
  rw [htwin.log] at hne
  obtain ⟨p, t, hname⟩ := (hv.inv himg hclear (by omega)).entryNames himg hclear hunstuck hi hne
  refine indexOk_of_hdrOk (htwin.log ▸ hname.names) hname.unstuck hname.fits
    (htwin.hdrOk hname.tile hname.hdr) ?_
  rwa [htwin.log]

/-- What the second loop does from the point where it takes up the work. -/
theorem ResumePoint.follows (h : ResumePoint L P P' img img' i) (hzero : ∀ j < i, img'.log j = 0)
    (himg : ImgInv L p₀ img) (hclear : WordsClear L img) (hstart : P'.nvmStart = P.nvmStart)
    (hfull : LogVisits P img maxLogEntries w) :
    Follows L P P' img img' i ∨
      i < maxLogEntries ∧ Follows L P P' img img' (i + 1) ∧ IndexOk (logStart P' img') i := by
  have hskip : LogVisits P' img' i (logStart P' img') := logVisits_of_empty hzero
  cases h with
  | between hv htwin => exact Or.inl ⟨_, _, hv, hskip, htwin⟩
  | @inside w p t hv hi hname hres hlog hnext =>
    obtain ⟨w₁, hv₁⟩ := hfull.before (i := i + 1) hi
    obtain ⟨v, hvv, hrun⟩ := logVisits_succ.mp hv₁
    obtain rfl := hv.unique hvv
    have hnvmStart : (logStart P' img').nvmStart = v.nvmStart := by
      rw [(hv.inv himg hclear (by omega)).nvmStart]
      exact hstart
    have hres' : Resumes L v.nvmStart v.nvm.mem (logStart P' img').nvm.mem p t := hres
    obtain ⟨w₁', hrun', htwin⟩ := hres'.step hname hlog hnext hnvmStart hrun
    refine Or.inr ⟨hi, ⟨w₁, w₁', hv₁, logVisits_succ.mpr ⟨_, hskip, hrun'⟩, htwin⟩, ?_⟩
    have hnames : Names ((logStart P' img').nvm.log i) p t := by
      show Names (img'.log i) p t
      rw [hlog]
      exact hname.names
    exact indexOk_of_hdrOk hnames hname.unstuck hname.fits hres.hdr

end

/-! ## Recovery after a crash in recovery -/

/-- The NVMs agree up to the `vdata` and `version` fields of run headers. -/
def SameUpToVdata (nvm nvm' : Nvm) : Prop :=
  nvm'.nextChunk = nvm.nextChunk ∧ nvm'.log = nvm.log ∧
    ∀ x, (∀ p ∈ headerPages nvm, usageAt nvm.mem p = usageRun → ¬ ScanByte p x) →
      nvm'.mem x = nvm.mem x

/-- Every replay of the log loop on `img` uses a `bit_idx` below the `n_max` of its run. -/
def ReplayIndices (P : Process) (img : Nvm) : Prop :=
  ∀ i < maxLogEntries, ∀ w, LogVisits P img i w → IndexOk w i

/-- Recovery of the second crash image `img'` ends as the recovery `w` of the first one. -/
structure Restarts (P P' : Process) (img img' : Nvm) (w : World) : Prop where
  completes : ∃ w', RecoversHeap P' img' w'
  same : ∀ w', RecoversHeap P' img' w' → SameUpToVdata w.nvm w'.nvm
  indices : ReplayIndices P img ∧ ReplayIndices P' img'

section

variable {P P' : Process} {L : Layout} {p₀ i nChunks : ℕ} {img img' : Nvm} {w w₀ w' : World}

/-- A completed recovery is a completed log loop and a completed thread. -/
theorem recoversHeap_iff : RecoversHeap P img w ↔ ∃ w₀, LogVisits P img maxLogEntries w₀ ∧
    ∃ fuel, (nvmRecoveryThread fuel img.nextChunk w₀).2 = .ok ((), w) := by
  unfold RecoversHeap LogVisits
  simp only [recoverHeap_result, bind_result]
  constructor
  · rintro ⟨fuel, _, w₀, hloop, hthread⟩
    exact ⟨w₀, hloop, fuel, hthread⟩
  · rintro ⟨w₀, hloop, fuel, hthread⟩
    exact ⟨fuel, (), w₀, hloop, hthread⟩

/-- The thread keeps what twins share. -/
theorem Scanned.sameKept (h : Scanned L (1024 * nChunks) w₀ w) (hok : ScanOk L nChunks w₀)
    (hunstuck : ∀ p n, L p ≠ some (.stuck n)) : SameKept L w₀.nvm.mem w.nvm.mem := by
  intro x hx
  refine h.mem x fun p hp hbyte => ?_
  obtain ⟨⟨-, -, hsome⟩, hneeds⟩ := mem_newRuns.mp hp
  obtain ⟨t, ht⟩ := Option.isSome_iff_exists.mp hsome
  obtain ⟨k, rfl⟩ := ((hok.hdr ht).usage fun n hn => hunstuck p n (hn ▸ ht)).2.mp hneeds.1
  exact hx p k ht hbyte

/-- After twin loops the thread meets the headers of the same layout. -/
theorem Twin.scanOk (h : Twin L w w') (hok : ScanOk L nChunks w)
    (hunstuck : ∀ p n, L p ≠ some (.stuck n)) : ScanOk L nChunks w' where
  ok := hok.ok
  hdr hp := h.hdrOk hp (hok.hdr hp)
  stuckRun hp _ := absurd hp (hunstuck _ _)

/-- The bytes that are kept, read off NVM itself. -/
theorem Aligned.kept {nvm : Nvm} {x : ℕ} (h : Aligned L nvm.mem nvm.nextChunk)
    (hx : ∀ p ∈ headerPages nvm, usageAt nvm.mem p = usageRun → ¬ ScanByte p x) : L.Kept x := by
  intro p k hp
  refine hx p (h.mem_headerPages.mpr (by rw [hp]; rfl)) ?_
  exact ((h.hdr hp).usage fun n => by simp).2.mpr ⟨k, rfl⟩

/-- The indices of the second loop. -/
theorem ResumePoint.indices (h : ResumePoint L P P' img img' i) (hzero : ∀ j < i, img'.log j = 0)
    (himg : ImgInv L p₀ img) (hclear : WordsClear L img) (hunstuck : ∀ p n, L p ≠ some (.stuck n))
    (hstart : P'.nvmStart = P.nvmStart) (hfull : LogVisits P img maxLogEntries w₀) :
    ReplayIndices P' img' := by
  intro j hj w' hv'
  have hfollows : ∀ {k}, Follows L P P' img img' k → k ≤ j → IndexOk w' j := fun hk hkj =>
    (hk.run himg hclear hunstuck hfull hkj (by omega)).indexOk himg hclear hunstuck hj hv'
  by_cases hji : j < i
  · -- an entry the first loop has cleared
    have hskip : LogVisits P' img' j (logStart P' img') :=
      logVisits_of_empty fun k hk => hzero k (by omega)
    obtain rfl := hskip.unique hv'
    exact fun hne => absurd (hzero j hji) hne
  · rcases h.follows hzero himg hclear hstart hfull with hi | ⟨-, hi, hidx⟩
    · exact hfollows hi (by omega)
    · by_cases hje : j = i
      · subst hje
        obtain rfl := (logVisits_of_empty (P := P') hzero).unique hv'
        exact hidx
      · exact hfollows hi (by omega)

end

/-- **Recovery can be interrupted**: started again on a clean cut of its log loop it ends as it
would have ended. -/
theorem recovery_restarts {P₀ P P' : Process} {img img' : Nvm} {w : World} (himg : CrashImage P₀ img)
    (hout : ReplayOutside img) (hrec : RecoversHeap P img w) (hstart : P'.nvmStart = P.nvmStart)
    (hcut : img' ∈ cuts logLoop (logStart P img)) (hclean : CleanCut img img') :
    Restarts P P' img img' w := by
  obtain ⟨L, p₀, hinv⟩ := exists_imgInv himg
  have hclear : WordsClear L img := hout.wordsClear hinv
  obtain ⟨w₀, hfull, fuel, hthread⟩ := recoversHeap_iff.mp hrec
  have hlog := hfull.inv hinv hclear le_rfl
  have hok := hlog.scanOk hinv
  obtain ⟨hunstuck, hscan⟩ := hok.thread hthread
  obtain ⟨hnext, i, hi, hpoint, hzero⟩ :=
    exists_resumePoint hinv hclear hunstuck hstart hfull hcut hclean
  -- at the end of the log the two loops are twins
  have hend : Follows L P P' img img' maxLogEntries := by
    rcases hpoint.follows hzero hinv hclear hstart hfull with hfol | ⟨hlt, hfol, -⟩
    · exact hfol.run hinv hclear hunstuck hfull hi le_rfl
    · exact hfol.run hinv hclear hunstuck hfull hlt le_rfl
  obtain ⟨v, w₀', hv, hv', htwin⟩ := hend
  obtain rfl := hfull.unique hv
  have hok' : ScanOk L img'.nextChunk w₀' := hnext ▸ htwin.scanOk hok hunstuck
  have haligned : Aligned L w.nvm.mem w.nvm.nextChunk :=
    Recovered.aligned ⟨hinv, hunstuck, hlog, hscan⟩
  refine ⟨?_, fun w' hrec' => ?_, fun j hj u hu => ?_,
    hpoint.indices hzero hinv hclear hunstuck hstart hfull⟩
  · obtain ⟨fuel', w', -, hthread'⟩ := hok'.terminates hunstuck
    exact ⟨w', recoversHeap_iff.mpr ⟨w₀', hv', fuel', hthread'⟩⟩
  · obtain ⟨u, hu, fuel', hthread'⟩ := recoversHeap_iff.mp hrec'
    obtain rfl := hv'.unique hu
    obtain ⟨-, hscan'⟩ := hok'.thread hthread'
    refine ⟨?_, ?_, fun x hx => ?_⟩
    · rw [hscan'.nvm, hscan.nvm]
      exact htwin.nextChunk
    · rw [hscan'.nvm, hscan.nvm]
      exact htwin.log
    · have hkept := haligned.kept hx
      rw [hscan'.sameKept hok' hunstuck x hkept, htwin.mem x hkept, hscan.sameKept hok hunstuck x hkept]
  · intro hne
    obtain ⟨p, t, hname⟩ := (hu.inv hinv hclear (by omega)).entryNames hinv hclear hunstuck hj hne
    exact indexOk_of_hdrOk hname.names hname.unstuck hname.fits hname.hdr hne

/-- The activation of a small region with a link. -/
def activateLinked : Op := .activate 4190272 (some ⟨4190272, 0⟩) none

/-- The activation is cut after its commit and the log loop after its `k`-th store. -/
theorem exists_second_cut (k : ℕ) (test : Nvm → Nvm → Bool)
    (hany : ((sampleHistory [.reserve 0 100]).any fun s =>
      decide (activateLinked.Valid s ∧ ¬ StaleLink s.w 4190272 (some ⟨4190272, 0⟩) none) &&
        (cuts activateLinked.prog s.w)[6]?.any fun img => decide (ReplayOutside img) &&
          (cuts logLoop (logStart sampleProcess img))[k]?.any (test img)) = true) :
    ∃ s img img' w, Reachable sampleProcess s ∧ activateLinked.Valid s ∧
      img ∈ cuts activateLinked.prog s.w ∧ img' ∈ cuts logLoop (logStart sampleProcess img) ∧
      ReplayOutside img ∧ RecoversHeap sampleProcess img w ∧ test img img' = true := by
  obtain ⟨s, hs, htest⟩ := Process.exists_reachable hany
  obtain ⟨hcall, hcut⟩ := Bool.and_eq_true_iff.mp htest
  obtain ⟨hvalid, hstale⟩ := of_decide_eq_true hcall
  obtain ⟨img, hget, hcut⟩ := (Option.any_eq_true _ _).mp hcut
  obtain ⟨hout, hcut⟩ := Bool.and_eq_true_iff.mp hcut
  obtain ⟨img', hget', hcut⟩ := (Option.any_eq_true _ _).mp hcut
  have himg := List.mem_of_getElem? hget
  obtain ⟨L, p₀, hinv, -, hblames⟩ := crashOk_of_cut hs hvalid himg
  have hfresh : ¬ (activateLinked.blame s).fresh := fun hfresh => absurd hfresh.1 (by decide)
  obtain ⟨w, hrec⟩ := hblames.exists_recoversHeap (P := sampleProcess) hinv id id hfresh hstale
  exact ⟨s, img, img', w, hs, hvalid, himg, List.mem_of_getElem? hget', of_decide_eq_true hout,
    hrec, hcut⟩

/-- The second crash finds the run header still in state ACTIVATING, its `on` array cleared. -/
theorem recovery_restarts_activate : ∃ s img img' w, Reachable sampleProcess s ∧
    activateLinked.Valid s ∧ img ∈ cuts activateLinked.prog s.w ∧
    img' ∈ cuts logLoop (logStart sampleProcess img) ∧ Pending img'.mem 1023 ∧
    RecoversHeap sampleProcess img w ∧ Restarts sampleProcess sampleProcess img img' w := by
  obtain ⟨s, img, img', w, hs, hvalid, himg, hcut, hout, hrec, htest⟩ :=
    exists_second_cut 36 (fun img img' => decide (CleanCut img img' ∧ Pending img'.mem 1023))
      (by decide +kernel)
  obtain ⟨hclean, hpend⟩ := of_decide_eq_true htest
  exact ⟨s, img, img', w, hs, hvalid, himg, hcut, hpend, hrec,
    recovery_restarts (.call hs hvalid himg) hout hrec rfl hcut hclean⟩

/-- The second crash comes between the stores to `bit_idx` and to the state: the next replay uses
`bit_idx = -1`. -/
theorem replay_without_index : ∃ s img img' w, Reachable sampleProcess s ∧
    activateLinked.Valid s ∧ img ∈ cuts activateLinked.prog s.w ∧
    img' ∈ cuts logLoop (logStart sampleProcess img) ∧ RecoversHeap sampleProcess img w ∧
    ¬ Restarts sampleProcess sampleProcess img img' w := by
  obtain ⟨s, img, img', w, hs, hvalid, himg, hcut, -, hrec, htest⟩ :=
    exists_second_cut 37 (fun _ img' =>
      stopsWith (fun e => decide (e = Stop.fault)) (logLoop (logStart sampleProcess img')).2)
      (by decide +kernel)
  refine ⟨s, img, img', w, hs, hvalid, himg, hcut, hrec, fun hrestarts => ?_⟩
  obtain ⟨w', hrec'⟩ := hrestarts.completes
  obtain ⟨w₀', hloop, -⟩ := recoversHeap_iff.mp hrec'
  have hloop' : (logLoop (logStart sampleProcess img')).2 = .ok ((), w₀') := hloop
  rw [hloop'] at htest
  exact absurd htest Bool.false_ne_true

end NvmMalloc
