import NvmMalloc.LinkSpec

/-!
# One entry of the log loop

Reference: `src/nvm_malloc.c` (`nvm_initialize_recovered`), `src/arena.c` (`arena_create_run_header`).

The log loop finishes the operation that a header has committed to: it stores the recorded links and
settles the header.  The lemmas here say what each branch leaves behind and, for each of its stores,
where it goes and which memory it leaves (`AcceptsRedo`): recovery must not write into client
memory, and a crash may cut it.
-/

namespace NvmMalloc

open Memory CrashM

/-! ## The stores of a program -/

/-- A store to the backing file goes to a place that `R` allows. -/
def StoresIn (R : ℕ → ℕ → Prop) : Event → Prop
  | .store a n _ => R a n
  | _ => True

/-- Started in `w`, every store of `p` satisfies `I`, its return `Q` and its early stop `E`. -/
def Located {α : Type} (p : Prog α) (I : Event → Prop) (Q : α → World → Prop) (E : Stop → Prop)
    (w : World) : Prop :=
  wp p (fun e => e.image?.isSome → I e) Q E w

section

variable {α β : Type} {p : Prog α} {f : α → Prog β} {I J : Event → Prop} {C : Nvm → Prop}
  {Q : α → World → Prop} {T : β → World → Prop} {U : Unit → World → Prop} {E : Stop → Prop} {w : World}

@[simp] theorem located_pure {a : α} : Located (pure a) I Q E w ↔ Q a w := wp_pure

@[simp] theorem located_bind :
    Located (p >>= f) I T E w ↔ Located p I (fun a w' => Located (f a) I T E w') E w := wp_bind

@[simp] theorem located_get {Q : World → World → Prop} : Located get I Q E w ↔ Q w w := wp_get

@[simp] theorem located_modify {g : World → World} : Located (modify g) I U E w ↔ U () (g w) :=
  wp_modify

@[simp] theorem located_throw {e : Stop} : Located (throw e) I Q E w ↔ E e := wp_throw

@[simp] theorem located_ite {c : Prop} [Decidable c] {q : Prog α} :
    Located (if c then p else q) I Q E w ↔
      (c → Located p I Q E w) ∧ (¬ c → Located q I Q E w) := wp_ite

@[simp] theorem located_storeAt {a n v : ℕ} :
    Located (storeAt a n v) I U E w ↔
      I (.store a n { w.nvm with mem := store w.nvm.mem a n v }) ∧
        U () (w.setMem (store w.nvm.mem a n v)) := by
  unfold Located storeAt
  rw [wp_commit]
  exact and_congr_left' (forall_prop_of_true rfl)

@[simp] theorem located_storeField {h v : ℕ} {f : NvmField} :
    Located (storeField h f v) I U E w ↔
      I (.store (h + f.off) f.width { w.nvm with mem := store w.nvm.mem (h + f.off) f.width v }) ∧
        U () (w.setMem (store w.nvm.mem (h + f.off) f.width v)) :=
  located_storeAt

@[simp] theorem located_memset0 {a n : ℕ} :
    Located (memset0 a n) I U E w ↔
      (∀ k < n, I (.store (a + k) 1 { w.nvm with mem := fill w.nvm.mem a (k + 1) })) ∧
        U () (w.setMem (fill w.nvm.mem a n)) := by
  unfold Located memset0
  rw [wp_commits]
  exact and_congr_left' (forall₂_congr fun _ _ => forall_prop_of_true rfl)

@[simp] theorem located_storeLog {i v : ℕ} :
    Located (storeLog i v) I U E w ↔
      I (.storeMeta { w.nvm with log := Function.update w.nvm.log i v }) ∧
        U () { w with nvm := { w.nvm with log := Function.update w.nvm.log i v } } := by
  unfold Located storeLog
  rw [wp_commit]
  exact and_congr_left' (forall_prop_of_true rfl)

@[simp] theorem located_persist {a : ℕ} : Located (persist a) I U E w ↔ U () w := by
  unfold Located persist persistRange
  rw [wp_emit]
  exact and_iff_right fun h => absurd h (by simp [Event.image?])

@[simp] theorem located_loadField {h : ℕ} {f : NvmField} {Q : ℕ → World → Prop} :
    Located (loadField h f) I Q E w ↔ Q (field w.nvm.mem h f) w := by
  unfold loadField
  rw [located_bind, located_get, located_pure]

@[simp] theorem located_assertThat {c : Prop} [Decidable c] :
    Located (assertThat c) I U E w ↔ (c → U () w) ∧ (¬ c → E .assertFailed) := by
  unfold assertThat
  rw [located_ite, located_pure, located_throw]

/-- Run a program whose specification is known, then the rest. -/
theorem Located.bind (h : Located p I Q E w) (hf : ∀ a w', Q a w' → Located (f a) I T E w') :
    Located (p >>= f) I T E w :=
  located_bind.mpr (wp_mono h (fun _ hi => hi) hf fun _ he => he)

/-- What is known about one normal return. -/
theorem Located.result (h : Located p I Q E w) {a : α} {w' : World} (hr : (p w).2 = .ok (a, w')) :
    Q a w' :=
  wp_result h hr

/-- What is known about an early stop. -/
theorem Located.stop (h : Located p I Q E w) {e : Stop} (hr : (p w).2 = .error e) : E e := by
  have hret := h.2
  rw [hr] at hret
  exact hret

/-- The images that the stores leave are all the images of `p`. -/
theorem Located.spec (h : Located p (OnImage C) Q E w) : Spec p C Q E w :=
  wp_mono h (fun _ hi img himg => hi (himg ▸ rfl) img himg) (fun _ _ hq => hq) fun _ he => he

/-- What `p` leaves, and where it stores. -/
theorem Located.of_spec (h : Spec p C Q E w) (hloc : Located p J (fun _ _ => True) (fun _ => True) w)
    (hI : ∀ e img, e.image? = some img → C img → J e → I e) : Located p I Q E w := by
  refine wp_mono (wp_and h hloc) (fun e hi hsome => ?_) (fun _ _ hq => hq.1) fun _ he => he.1
  obtain ⟨img, himg⟩ := Option.isSome_iff_exists.mp hsome
  exact hI e img himg (hi.1 img himg) (hi.2 hsome)

end

/-! ## Links -/

/-- The words a replay of the links recorded at `h` stores. -/
def replayedWords (nvmStart : ℕ) (m : Mem) (h on : ℕ) : List (ℕ × ℕ) :=
  (recordedWords m h on).map fun x => (x.1, relToAbsWithNull nvmStart x.2)

section

variable {I : Event → Prop} {Q : Unit → World → Prop} {E : Stop → Prop} {w : World} {h on : ℕ}

theorem mem_replayedWords {nvmStart : ℕ} {m : Mem} {x : ℕ × ℕ} (hx : x ∈ replayedWords nvmStart m h on) :
    ∃ y ∈ recordedWords m h on, x.1 = y.1 := by
  obtain ⟨y, hy, rfl⟩ := List.mem_map.mp hx
  exact ⟨y, hy, rfl⟩

/-- Words that lie outside a range are replayed outside it. -/
theorem outside_replayedWords {nvmStart a n : ℕ} {m : Mem} (hout : Outside (recordedWords m h on) a n) :
    Outside (replayedWords nvmStart m h on) a n := by
  intro x hx
  obtain ⟨y, hy, hxy⟩ := mem_replayedWords hx
  rw [hxy]
  exact hout y hy

theorem located_replayLink {k : ℕ} {m' : Mem}
    (hm' : m' = store w.nvm.mem (field w.nvm.mem h (onPtrF on k)) 8
      (relToAbsWithNull w.nvmStart (field w.nvm.mem h (onValueF on k)))) :
    Located (replayLink h on k) I Q E w ↔
      I (.store (field w.nvm.mem h (onPtrF on k)) 8 { w.nvm with mem := m' }) ∧ Q () (w.setMem m') := by
  unfold replayLink
  simp only [located_bind, located_loadField, located_get, located_storeAt, located_persist, hm']

/-- `replayLinks` stores the recorded words, and between two of its stores some of them. -/
theorem replayLinks_located (hout : Outside (recordedWords w.nvm.mem h on) (h + on) 32)
    (hI : ∀ x ∈ recordedWords w.nvm.mem h on, ∀ ws, ws ⊆ replayedWords w.nvmStart w.nvm.mem h on →
      I (.store x.1 8 { w.nvm with mem := storeWords w.nvm.mem ws }))
    (hQ : ∀ m', m' = storeWords w.nvm.mem (replayedWords w.nvmStart w.nvm.mem h on) →
      Q () (w.setMem m')) :
    Located (replayLinks h on) I Q E w := by
  unfold replayLinks
  rw [located_bind, located_loadField, located_ite]
  refine ⟨fun hzero => ?_, fun hne => ?_⟩
  · rw [located_pure]
    refine hQ w.nvm.mem ?_
    rw [replayedWords, recordedWords, if_pos hzero]
    rfl
  obtain ⟨ws, hws⟩ : ∃ ws, recordedWords w.nvm.mem h on =
      (field w.nvm.mem h (onPtrF on 0), field w.nvm.mem h (onValueF on 0)) :: ws := by
    rw [recordedWords, if_neg hne]
    exact ⟨_, rfl⟩
  have hmem := hws ▸ List.mem_cons_self
  have hd := hout _ hmem
  -- the first word lies outside the array, so the second entry is still what it was
  obtain ⟨m₁, hm₁⟩ : ∃ m₁, m₁ = store w.nvm.mem (field w.nvm.mem h (onPtrF on 0)) 8
    (relToAbsWithNull w.nvmStart (field w.nvm.mem h (onValueF on 0))) := ⟨_, rfl⟩
  have hkeep : ∀ f : NvmField, on ≤ f.off → f.off + f.width ≤ on + 32 →
      field m₁ h f = field w.nvm.mem h f := by
    intro f hlo hhi
    rw [hm₁]
    exact field_store_disjoint (by omega)
  have hptr := hkeep (onPtrF on 1) (by simp only [onPtrF]; omega) (by simp only [onPtrF]; omega)
  have hval := hkeep (onValueF on 1) (by simp only [onValueF]; omega) (by simp only [onValueF]; omega)
  have hfirst : m₁ = storeWords w.nvm.mem [(field w.nvm.mem h (onPtrF on 0),
      relToAbsWithNull w.nvmStart (field w.nvm.mem h (onValueF on 0)))] := by
    rw [hm₁, storeWords_cons, storeWords_nil]
  rw [located_bind, located_replayLink hm₁]
  refine ⟨?_, ?_⟩
  · rw [hfirst]
    refine hI _ hmem _ fun x hx => ?_
    rw [replayedWords, hws, List.mem_singleton.mp hx]
    exact List.mem_cons_self
  rw [located_bind, located_loadField, located_ite, setMem_nvm, hptr]
  refine ⟨fun hzero => ?_, fun hne' => ?_⟩
  · rw [located_pure]
    refine hQ m₁ ?_
    simp only [hfirst, replayedWords, recordedWords, if_neg hne, if_pos hzero, List.map_cons,
      List.map_nil]
  · have hall : storeWords w.nvm.mem (replayedWords w.nvmStart w.nvm.mem h on) =
        store (w.setMem m₁).nvm.mem (field (w.setMem m₁).nvm.mem h (onPtrF on 1)) 8
          (relToAbsWithNull (w.setMem m₁).nvmStart (field (w.setMem m₁).nvm.mem h (onValueF on 1))) := by
      rw [setMem_nvm, setMem_nvmStart, hptr, hval, hm₁]
      simp only [replayedWords, recordedWords, if_neg hne, if_neg hne', List.map_cons,
        List.map_nil, storeWords_cons, storeWords_nil]
    rw [located_replayLink hall, setMem_nvm, hptr]
    refine ⟨hI (field w.nvm.mem h (onPtrF on 1), field w.nvm.mem h (onValueF on 1)) ?_ _ fun x hx => hx,
      hQ _ rfl⟩
    rw [recordedWords, if_neg hne, if_neg hne']
    exact List.mem_cons_of_mem _ List.mem_cons_self

end

/-! ## The stages of a redo -/

/-- The state of a header once the log loop is through with it. -/
def redoneState (st : ℕ) : ℕ :=
  if getState st = stateFreeing then usageFree + stateInitialized
  else if getState st = stateActivating then getUsage st + stateInitialized
  else st

instance (m : Mem) (p : ℕ) : Decidable (Pending m p) :=
  inferInstanceAs (Decidable (_ ∨ _))

/-- The words the log loop stores for the header on page `p`. -/
def redoneWords (nvmStart : ℕ) (m : Mem) (p on : ℕ) : List (ℕ × ℕ) :=
  if Pending m p then replayedWords nvmStart m (4096 * p) on else []

/-- Bit `j` of a run header once the log loop is through with it. -/
def redoneBit (m : Mem) (h j : ℕ) : Bool :=
  if field m h stateF = usageRun + stateFreeing ∧ field m h bitIdxF = j then false
  else if field m h stateF = usageRun + stateActivating ∧ field m h bitIdxF = j then true
  else bitmapBit m h j

/-- The log loop takes the header on page `p` for one it knows how to deal with. -/
def Expected (m : Mem) (p : ℕ) : Prop :=
  field m (4096 * p) stateF ∉ [0, usageFree + stateInitializing, usageHuge + stateInitializing]

/-- The first `k` bytes of the `on` array of `m'` are cleared, the others are as in `m`. -/
def OnCleared (m m' : Mem) (h on k : ℕ) : Prop :=
  ∀ j < 32, m' (h + on + j) = if j < k then 0 else m (h + on + j)

/-- What the log loop makes of a block or huge header on page `p` and of the words recorded in it. -/
structure HdrFinal (nvmStart : ℕ) (m m' : Mem) (p : ℕ) : Prop extends
    HdrStage m (4096 * p) (redoneWords nvmStart m p blockOn)
      (redoneState (field m (4096 * p) stateF)) m' where
  on : ∀ k < 32, m' (4096 * p + blockOn + k) =
    if Pending m p then 0 else m (4096 * p + blockOn + k)

/-- What `replayRun` leaves of the header on page `p`: the bit is in place, the rest of the line is as
it was. -/
structure RunReplayed (nvmStart : ℕ) (m₀ m : Mem) (p : ℕ) : Prop where
  off : EqOff (storeWords m₀ (redoneWords nvmStart m₀ p runOn)) m (4096 * p + 48) 8
  bits : ∀ j < 64, bitmapBit m (4096 * p) j = redoneBit m₀ (4096 * p) j

/-- A stage of the resetting of the run header at `h`: of the `on` array `n` bytes are cleared. -/
structure ResetStage (m₁ m' : Mem) (h n : ℕ) : Prop where
  off : EqOff m₁ m' h 64
  keep : ∀ x, h + 1 ≤ x ∧ x < h + 8 ∨ h + 48 ≤ x ∧ x < h + 56 ∨ h + 58 ≤ x ∧ x < h + 60 → m' x = m₁ x
  on : OnCleared m₁ m' h runOn n
  state : field m' h stateF = field m₁ h stateF ∨ field m' h stateF = usageRun + stateInitialized
  bitIdx : field m' h bitIdxF = field m₁ h bitIdxF ∨ field m' h bitIdxF = bitIdxNone

/-- What the log loop makes of a run header, its `vdata` and `version` fields apart. -/
structure RunFinal (nvmStart : ℕ) (m m' : Mem) (p : ℕ) : Prop where
  off : EqOff (storeWords m (redoneWords nvmStart m p runOn)) m' (4096 * p) 64
  keep : ∀ x, 4096 * p + 1 ≤ x → x < 4096 * p + 8 ∨ 4096 * p + 58 ≤ x → x < 4096 * p + 60 → m' x = m x
  state : field m' (4096 * p) stateF = usageRun + stateInitialized
  bitIdx : field m' (4096 * p) bitIdxF = bitIdxNone
  on : OnZero m' (4096 * p) runOn
  bits : ∀ j < 64, bitmapBit m' (4096 * p) j = redoneBit m (4096 * p) j

/-- What the log loop makes of the tile `t` on page `p`. -/
def TileFinal (nvmStart : ℕ) (m m' : Mem) (p : ℕ) : Tile → Prop
  | .huge _ _ | .block _ _ => HdrFinal nvmStart m m' p
  | .run _ => RunFinal nvmStart m m' p
  | .arena | .stuck _ => False

/-- What a store of the redo of the tile `t` on page `p` leaves of `m`: some of the words are stored, or
all of them and the header is being settled. -/
inductive RedoCut (nvmStart : ℕ) (m : Mem) (p : ℕ) (t : Tile) (m' : Mem) : Prop where
  | words {ws : List (ℕ × ℕ)} (hpend : Pending m p) (hws : ws ⊆ replayedWords nvmStart m (4096 * p) t.on)
      (hm' : m' = storeWords m ws)
  | header {n k st : ℕ} {o : Owner} (ht : t = .huge n o ∨ t = .block n o) (hpend : Pending m p)
      (hstage : HdrStage m (4096 * p) (redoneWords nvmStart m p blockOn) st m')
      (hcl : OnCleared m m' (4096 * p) blockOn k)
      (hst : st = field m (4096 * p) stateF ∨ st = redoneState (field m (4096 * p) stateF) ∧ 32 ≤ k)
  | run {k n : ℕ} {m₁ : Mem} (ht : t = .run k) (hm₁ : RunReplayed nvmStart m m₁ p)
      (hstage : ResetStage m₁ m' (4096 * p) n)

/-- The redo of the tile `t` on page `p` stores into the header line and to the recorded words. -/
def RedoPlace (m : Mem) (p : ℕ) (t : Tile) (a n : ℕ) : Prop :=
  4096 * p ≤ a ∧ a + n ≤ 4096 * p + 64 ∨
    Pending m p ∧ ∃ x ∈ recordedWords m (4096 * p) t.on, a = x.1 ∧ n = 8

/-- `I` accepts the stores of the redo of the tile `t` on page `p`. -/
def AcceptsRedo (I : Event → Prop) (w : World) (p : ℕ) (t : Tile) : Prop :=
  ∀ {a n m'}, RedoPlace w.nvm.mem p t a n → RedoCut w.nvmStart w.nvm.mem p t m' →
    I (.store a n { w.nvm with mem := m' })

/-! ## Block and huge headers -/

/-- What the states of a block or huge header at a crash have in common. -/
def HeaderState (usage st : ℕ) : Prop :=
  getState st ≠ statePrefree ∧ getState st ≠ statePreactivate ∧
    (getState st = stateActivating → getUsage st = usage) ∧
    (getState st = stateFreeing → st = usage + stateFreeing) ∧
    (st ∉ [0, usageFree + stateInitializing, usageHuge + stateInitializing] ↔
      getState st = stateFreeing ∨ getState st = stateActivating ∨ getState st = stateInitialized)

instance (usage st : ℕ) : Decidable (HeaderState usage st) :=
  inferInstanceAs (Decidable (_ ∧ _ ∧ _ ∧ _ ∧ _))

section

variable {I : Event → Prop} {Q : Unit → World → Prop} {E : Stop → Prop} {w : World} {p n : ℕ} {o : Owner}
  {t : Tile} {m : Mem}

theorem HdrOk.hugeState (h : HdrOk m p (.huge n o)) :
    HeaderState usageHuge (field m (4096 * p) stateF) :=
  (show ∀ st ∈ [usageFree + stateInitialized, usageHuge + stateInitializing,
    usageHuge + stateInitialized, usageHuge + stateFreeing, usageHuge + stateActivating],
    HeaderState usageHuge st by decide) _ h.2

theorem HdrOk.blockState (h : HdrOk m p (.block n o)) :
    HeaderState usageBlock (field m (4096 * p) stateF) :=
  (show ∀ st ∈ [0, usageFree + stateInitializing, usageFree + stateInitialized,
    usageBlock + stateInitialized, usageBlock + stateFreeing, usageBlock + stateActivating],
    HeaderState usageBlock st by decide) _ h.2.2

/-- The replay of the links stores into places, and leaves memories, of the redo. -/
theorem AcceptsRedo.words (hI : AcceptsRedo I w p t) (hpend : Pending w.nvm.mem p) :
    ∀ x ∈ recordedWords w.nvm.mem (4096 * p) t.on,
      ∀ ws, ws ⊆ replayedWords w.nvmStart w.nvm.mem (4096 * p) t.on →
        I (.store x.1 8 { w.nvm with mem := storeWords w.nvm.mem ws }) :=
  fun x hx _ hws => hI (Or.inr ⟨hpend, x, hx, rfl, rfl⟩) (.words hpend hws rfl)

/-- What `settleHeader` leaves after the words are stored. -/
theorem settleHeader_located {final : ℕ} {m₁ : Mem} (ht : t = .huge n o ∨ t = .block n o)
    (hpend : Pending w.nvm.mem p)
    (hout : Outside (recordedWords w.nvm.mem (4096 * p) blockOn) (4096 * p) 64)
    (hm₁ : m₁ = storeWords w.nvm.mem (replayedWords w.nvmStart w.nvm.mem (4096 * p) blockOn))
    (hlt : final < 256) (hfinal : final = redoneState (field w.nvm.mem (4096 * p) stateF))
    (hI : AcceptsRedo I w p t)
    (hQ : ∀ m', HdrFinal w.nvmStart w.nvm.mem m' p → Q () (w.setMem m')) :
    Located (settleHeader (4096 * p) final) I Q E (w.setMem m₁) := by
  -- the words lie outside the header line
  have hline : EqOn w.nvm.mem m₁ (4096 * p) 64 := hm₁ ▸ (outside_replayedWords hout).eqOn _
  have hwords : storeWords w.nvm.mem (redoneWords w.nvmStart w.nvm.mem p blockOn) = m₁ := by
    rw [hm₁, redoneWords, if_pos hpend]
  have hfill : ∀ k ≤ 32, HdrStage w.nvm.mem (4096 * p) (redoneWords w.nvmStart w.nvm.mem p blockOn)
      (field w.nvm.mem (4096 * p) stateF) (fill m₁ (4096 * p + blockOn) k) ∧
      OnCleared w.nvm.mem (fill m₁ (4096 * p + blockOn) k) (4096 * p) blockOn k := by
    intro k hk
    refine ⟨⟨?_, ?_, fun x hlo hmid hhi => ?_⟩, fun j hj => ?_⟩
    · rw [hwords]
      exact (EqOff.refl _ _ _).fill (by omega) (by simp only [blockOn]; omega)
    · rw [field_fill_of_ne (Or.inl (by decide)), field_eqOn hline (by decide)]
    · rw [fill_eqOff _ _ _ x (by simp only [blockOn]; omega)]
      exact hline x (by omega) hhi
    · split
      · exact fill_apply (by omega) (by omega)
      · rw [fill_eqOff _ _ _ _ (by omega)]
        exact hline _ (by simp only [blockOn]; omega) (by simp only [blockOn]; omega)
  obtain ⟨hs, hcl⟩ := hfill 32 le_rfl
  obtain ⟨m₂, hm₂⟩ : ∃ m₂, m₂ = store (fill m₁ (4096 * p + blockOn) 32) (4096 * p + stateF.off)
    stateF.width final := ⟨_, rfl⟩
  have hkeep : ∀ x, 4096 * p + 1 ≤ x → m₂ x = fill m₁ (4096 * p + blockOn) 32 x := by
    intro x hlo
    rw [hm₂]
    exact store_eqOff _ _ _ _ x (by simp only [stateF]; omega)
  have hs₂ : HdrStage w.nvm.mem (4096 * p) (redoneWords w.nvmStart w.nvm.mem p blockOn)
      (redoneState (field w.nvm.mem (4096 * p) stateF)) m₂ := by
    refine ⟨?_, ?_, fun x hlo hmid hhi => (hkeep x hlo).trans (hs.keep x hlo hmid hhi)⟩
    · rw [hm₂]
      exact hs.off.store _ (by simp only [stateF]; omega) (by simp only [stateF]; omega)
    · rw [hm₂, field_store_self, ← hfinal]
      exact Nat.mod_eq_of_lt hlt
  have hcl₂ : OnCleared w.nvm.mem m₂ (4096 * p) blockOn 32 :=
    fun j hj => (hkeep _ (by simp only [blockOn]; omega)).trans (hcl j hj)
  unfold settleHeader
  simp only [located_bind, located_memset0, located_storeField, located_persist, setMem_nvm,
    setMem_setMem, ← hm₂]
  refine ⟨fun k hk => hI (Or.inl ⟨by omega, by simp only [blockOn]; omega⟩)
      (.header ht hpend (hfill _ hk).1 (hfill _ hk).2 (Or.inl rfl)),
    hI (Or.inl ⟨by omega, by simp only [stateF]; omega⟩)
      (.header ht hpend hs₂ hcl₂ (Or.inr ⟨rfl, le_rfl⟩)), hQ m₂ ⟨hs₂, fun k hk => ?_⟩⟩
  rw [if_pos hpend, hcl₂ k hk, if_pos hk]

/-- The branch of the log loop for a block or huge header on page `p`. -/
theorem recoverHeader_located {usage : ℕ} {release : Prog Unit} (ht : t = .huge n o ∨ t = .block n o)
    (hst : HeaderState usage (field w.nvm.mem (4096 * p) stateF)) (husage : usage < 240)
    (hout : Pending w.nvm.mem p → Outside (recordedWords w.nvm.mem (4096 * p) t.on) (4096 * p) 64)
    (hI : AcceptsRedo I w p t) (hE : ¬ Expected w.nvm.mem p → E .assertFailed)
    (hkeep : ∀ m', HdrFinal w.nvmStart w.nvm.mem m' p → Expected w.nvm.mem p →
      getState (field w.nvm.mem (4096 * p) stateF) ≠ stateFreeing → Q () (w.setMem m'))
    (hfree : ∀ m', HdrFinal w.nvmStart w.nvm.mem m' p → Expected w.nvm.mem p →
      field w.nvm.mem (4096 * p) stateF = usage + stateFreeing → Located release I Q E (w.setMem m')) :
    Located (recoverHeader (4096 * p) usage release) I Q E w := by
  obtain ⟨hprefree, hpreact, hactive, hfreeing, hexp⟩ := hst
  have hon : t.on = blockOn := by rcases ht with rfl | rfl <;> rfl
  -- replay and settle, for the two committed states
  have hredo : ∀ {U : Unit → World → Prop} {final : ℕ}, Pending w.nvm.mem p → final < 256 →
      final = redoneState (field w.nvm.mem (4096 * p) stateF) →
      (∀ m', HdrFinal w.nvmStart w.nvm.mem m' p → U () (w.setMem m')) →
      Located (replayLinks (4096 * p) blockOn) I
        (fun _ w' => Located (settleHeader (4096 * p) final) I U E w') E w := by
    intro U final hpend hlt hfinal hU
    have hwords := hI.words hpend
    have hline := hout hpend
    rw [hon] at hwords hline
    refine replayLinks_located (fun x hx => ?_) hwords fun m₁ hm₁ =>
      settleHeader_located ht hpend hline hm₁ hlt hfinal hI hU
    have := hline x hx
    simp only [blockOn]
    omega
  unfold recoverHeader
  rw [located_bind, located_loadField, located_ite, located_ite, located_ite, located_ite]
  refine ⟨fun h => absurd h hprefree, fun _ => ⟨fun hf => ?_, fun hf =>
    ⟨fun h => absurd h hpreact, fun _ => ⟨fun ha => ?_, fun ha => ?_⟩⟩⟩⟩
  · rw [located_bind]
    simp only [located_bind]
    refine hredo (Or.inl hf) (by decide) ?_ fun m' hm' =>
      hfree m' hm' (hexp.mpr (Or.inl hf)) (hfreeing hf)
    rw [redoneState, if_pos hf]
  · rw [located_bind]
    refine hredo (Or.inr ha) (by simp only [stateInitialized]; omega) ?_ fun m' hm' =>
      hkeep m' hm' (hexp.mpr (Or.inr (Or.inl ha))) hf
    rw [redoneState, if_neg hf, if_pos ha, hactive ha]
  · -- nothing is stored
    have hpend : ¬ Pending w.nvm.mem p := not_or.mpr ⟨hf, ha⟩
    rw [located_assertThat]
    refine ⟨fun hok => hkeep w.nvm.mem ⟨⟨?_, ?_, fun _ _ _ _ => rfl⟩, fun k _ => ?_⟩
      (hexp.mpr (Or.inr (Or.inr hok))) hf,
      fun hnot => hE fun h => hnot (((hexp.mp h).resolve_left hf).resolve_left ha)⟩
    · rw [redoneWords, if_neg hpend]
      exact EqOff.refl _ _ _
    · rw [redoneState, if_neg hf, if_neg ha]
    · rw [if_neg hpend]

end

/-! ## VHeaders -/

/-- The VHeader that `arena_create_run_header` builds from the run header at `h`. -/
def headerRun (m : Mem) (h : ℕ) : ArenaRun where
  nvmRun := h
  bin := (field m h runArenaIdF, field m h nBytesF / 64 - 1)
  elemSize := field m h nBytesF
  nFree := clearBits (bitmapBit m h) (slotsPerRun (field m h nBytesF))
  nMax := slotsPerRun (field m h nBytesF)
  bitmap := bitmapBit m h
  next := none

/-- Allocate the next VHeader. -/
def World.addRun (w : World) (x : ArenaRun) : World :=
  { w with vheaders := Function.update w.vheaders w.nVheaders x, nVheaders := w.nVheaders + 1 }

/-- The VHeader `x` was built from the header of the run on page `p`; its place in a list apart. -/
structure Describes (m : Mem) (p : ℕ) (x : ArenaRun) : Prop where
  nvmRun : x.nvmRun = 4096 * p
  bin : x.bin = (field m (4096 * p) runArenaIdF, field m (4096 * p) nBytesF / 64 - 1)
  elemSize : x.elemSize = field m (4096 * p) nBytesF
  nFree : x.nFree = clearBits (bitmapBit m (4096 * p)) (slotsPerRun (field m (4096 * p) nBytesF))
  nMax : x.nMax = slotsPerRun (field m (4096 * p) nBytesF)
  bitmap : ∀ j < 64, x.bitmap j = bitmapBit m (4096 * p) j

section

variable {I : Event → Prop} {E : Stop → Prop} {w : World} {h p : ℕ} {m m' : Mem} {x : ArenaRun}

theorem describes_headerRun (m : Mem) (p : ℕ) : Describes m p (headerRun m (4096 * p)) :=
  ⟨rfl, rfl, rfl, rfl, rfl, fun _ _ => rfl⟩

/-- A VHeader describes every header with the same size, arena and bitmap. -/
theorem Describes.congr (hx : Describes m p x)
    (hbytes : field m' (4096 * p) nBytesF = field m (4096 * p) nBytesF)
    (harena : field m' (4096 * p) runArenaIdF = field m (4096 * p) runArenaIdF)
    (hbits : ∀ j < 64, bitmapBit m' (4096 * p) j = bitmapBit m (4096 * p) j)
    (hslots : slotsPerRun (field m (4096 * p) nBytesF) ≤ 63) : Describes m' p x where
  nvmRun := hx.nvmRun
  bin := by rw [hbytes, harena]; exact hx.bin
  elemSize := by rw [hbytes]; exact hx.elemSize
  nFree := by
    rw [hbytes, clearBits_congr fun j hj => hbits j (by omega)]
    exact hx.nFree
  nMax := by rw [hbytes]; exact hx.nMax
  bitmap j hj := (hx.bitmap j hj).trans (hbits j hj).symm

/-- The header at `h` names an arena and a bin. -/
def BinExists (m : Mem) (h : ℕ) : Prop :=
  field m h runArenaIdF < initialArenas ∧ 0 < field m h nBytesF / 64 ∧ field m h nBytesF / 64 ≤ 31

theorem RunHdr.binExists (hr : RunHdr m h) : BinExists m h := by
  obtain ⟨⟨c, hc, hn⟩, ha⟩ := hr
  refine ⟨ha, ?_⟩
  rw [hn]
  omega

theorem located_arenaCreateRunHeader {Q : ℕ → World → Prop} :
    Located (arenaCreateRunHeader h) I Q E w ↔
      (BinExists w.nvm.mem h → Q w.nVheaders (w.addRun (headerRun w.nvm.mem h))) ∧
        (¬ BinExists w.nvm.mem h → E .fault) := by
  unfold arenaCreateRunHeader mallocRun
  simp only [located_bind, located_loadField, located_get, located_ite, located_modify, located_pure,
    located_throw]
  rfl

end

/-! ## Run headers -/

/-- The run header at `h` once the log loop of a process with version `cur` is through with it. -/
structure RunRedone (cur : ℕ) (m₀ m : Mem) (h : ℕ) : Prop where
  keep : ∀ x, h + 1 ≤ x → x < h + 8 ∨ h + 58 ≤ x → x < h + 60 → m x = m₀ x
  state : field m h stateF = usageRun + stateInitialized
  version : field m h versionF = cur % 2 ^ 32
  on : OnZero m h runOn
  bits : ∀ j < 64, bitmapBit m h j = redoneBit m₀ h j

/-- The states of a run header at a crash. -/
def RunStateOk (st : ℕ) : Prop :=
  st ∈ [usageRun + stateInitialized, usageRun + statePrefree, usageRun + stateFreeing,
    usageRun + statePreactivate, usageRun + stateActivating]

section

variable {I : Event → Prop} {Q : Unit → World → Prop} {E : Stop → Prop} {w : World} {p i k n h : ℕ}
  {m m₁ m' : Mem}

/-- The bits of a header that is not in transition are final. -/
theorem redoneBit_of_not_pending {j : ℕ} (hpend : ¬ Pending m p) :
    redoneBit m (4096 * p) j = bitmapBit m (4096 * p) j := by
  unfold Pending at hpend
  rw [redoneBit, if_neg, if_neg]
  · exact fun h => hpend (Or.inr (h.1 ▸ rfl))
  · exact fun h => hpend (Or.inl (h.1 ▸ rfl))

/-- The replay keeps the header line up to the bitmap. -/
theorem RunReplayed.line {nvmStart : ℕ} (h : RunReplayed nvmStart m m₁ p)
    (hout : Pending m p → Outside (recordedWords m (4096 * p) runOn) (4096 * p) 64) {x : ℕ}
    (hlo : 4096 * p ≤ x) (hhi : x < 4096 * p + 64) (hx : x < 4096 * p + 48 ∨ 4096 * p + 56 ≤ x) :
    m₁ x = m x := by
  rw [h.off x (by omega), redoneWords]
  split
  · rename_i hpend
    exact (outside_replayedWords (hout hpend)).eqOn _ x hlo hhi
  · rfl

theorem RunReplayed.field_eq {nvmStart : ℕ} (h : RunReplayed nvmStart m m₁ p)
    (hout : Pending m p → Outside (recordedWords m (4096 * p) runOn) (4096 * p) 64) {f : NvmField}
    (hf : f.off + f.width ≤ 48 ∨ 56 ≤ f.off ∧ f.off + f.width ≤ 64) :
    field m₁ (4096 * p) f = field m (4096 * p) f :=
  field_congr fun _ _ _ => h.line hout (by omega) (by omega) (by omega)

theorem ResetStage.fill (m₁ : Mem) (h : ℕ) (hn : n ≤ 32) :
    ResetStage m₁ (fill m₁ (h + runOn) n) h n where
  off := (EqOff.refl _ _ _).fill (by omega) (by simp only [runOn]; omega)
  keep x hx := fill_eqOff _ _ _ x (by simp only [runOn]; omega)
  on j hj := by
    split
    · exact fill_apply (by omega) (by omega)
    · exact fill_eqOff _ _ _ _ (by omega)
  state := Or.inl (field_fill_of_ne (Or.inl (by decide)))
  bitIdx := Or.inl (field_fill_of_ne (Or.inr (by simp only [runOn, bitIdxF]; omega)))

/-- A store to the state, `vdata`, `bit_idx` or `version`. -/
theorem ResetStage.store (hs : ResetStage m₁ m' h n) {v : ℕ} {f : NvmField}
    (hf : f = stateF ∧ v = usageRun + stateInitialized ∨ 8 ≤ f.off ∧ f.off + f.width ≤ 16 ∨
      f = bitIdxF ∧ v = bitIdxNone ∨ 60 ≤ f.off ∧ f.off + f.width ≤ 64) :
    ResetStage m₁ (Memory.store m' (h + f.off) f.width v) h n := by
  have hplace : f.off + f.width ≤ 1 ∨ 8 ≤ f.off ∧ f.off + f.width ≤ 16 ∨
      56 ≤ f.off ∧ f.off + f.width ≤ 58 ∨ 60 ≤ f.off ∧ f.off + f.width ≤ 64 := by
    rcases hf with ⟨rfl, -⟩ | hf | ⟨rfl, -⟩ | hf
    · exact Or.inl (by decide)
    · exact Or.inr (Or.inl hf)
    · exact Or.inr (Or.inr (Or.inl (by decide)))
    · exact Or.inr (Or.inr (Or.inr hf))
  refine ⟨hs.off.store _ (by omega) (by omega), fun x hx => (store_eqOff _ _ _ _ x (by omega)).trans
    (hs.keep x hx), fun j hj => (store_eqOff _ _ _ _ _ (by simp only [runOn]; omega)).trans (hs.on j hj),
    ?_, ?_⟩
  · by_cases hst : f.off < 1
    · obtain ⟨rfl, rfl⟩ := hf.resolve_right (by
        rintro (hf | ⟨rfl, -⟩ | hf)
        · omega
        · exact absurd hst (by decide)
        · omega)
      exact Or.inr field_store_self
    · rw [field_store_of_ne (Or.inl (by simp only [stateF]; omega))]
      exact hs.state
  · by_cases hidx : 56 ≤ f.off ∧ f.off < 58
    · obtain ⟨rfl, rfl⟩ : f = bitIdxF ∧ v = bitIdxNone := by
        rcases hf with ⟨rfl, -⟩ | hf | hf | hf
        · exact absurd hidx (by decide)
        · omega
        · exact hf
        · omega
      exact Or.inr field_store_self
    · rw [field_store_of_ne (by simp only [bitIdxF]; omega)]
      exact hs.bitIdx

/-- Where setting or clearing a bit stores. -/
def BitmapPlace (h : ℕ) : Event → Prop
  | .store a n _ => h + 48 ≤ a ∧ a + n ≤ h + 56
  | _ => False

theorem setNvmBit_located (hi : i < 64) :
    Located (setNvmBit h i) (BitmapPlace h) (fun _ _ => True) (fun _ => True) w := by
  unfold setNvmBit
  rw [located_bind, located_loadField, located_storeField]
  exact ⟨⟨by simp only [bitmapF]; omega, by simp only [bitmapF]; omega⟩, trivial⟩

theorem clearNvmBit_located (hi : i < 64) :
    Located (clearNvmBit h i) (BitmapPlace h) (fun _ _ => True) (fun _ => True) w := by
  unfold clearNvmBit
  rw [located_bind, located_loadField, located_storeField]
  exact ⟨⟨by simp only [bitmapF]; omega, by simp only [bitmapF]; omega⟩, trivial⟩

/-- The redo of a committed run header: the links, then the bit. -/
theorem redoBit_located {mark : ℕ → Prog Unit} {b : Bool} (hpend : Pending w.nvm.mem p)
    (hidx : field w.nvm.mem (4096 * p) bitIdxF < 64)
    (hmark : ∀ i < 64, Marks (mark i) (4096 * p) i b)
    (hloc : ∀ i < 64, ∀ w', Located (mark i) (BitmapPlace (4096 * p)) (fun _ _ => True)
      (fun _ => True) w')
    (hbit : ∀ j, redoneBit w.nvm.mem (4096 * p) j = if field w.nvm.mem (4096 * p) bitIdxF = j then b
      else bitmapBit w.nvm.mem (4096 * p) j)
    (hout : Outside (recordedWords w.nvm.mem (4096 * p) runOn) (4096 * p) 64)
    (hI : AcceptsRedo I w p (.run k))
    (hQ : ∀ m', RunReplayed w.nvmStart w.nvm.mem m' p → Q () (w.setMem m')) :
    Located (do
      replayLinks (4096 * p) runOn
      let i ← replayIdx (4096 * p)
      mark i) I Q E w := by
  rw [located_bind]
  refine replayLinks_located (fun x hx => ?_) (hI.words hpend) fun m₁ hm₁ => ?_
  · have := hout x hx
    simp only [runOn]
    omega
  -- the words lie outside the header
  have hline : EqOn w.nvm.mem m₁ (4096 * p) 64 := hm₁ ▸ (outside_replayedWords hout).eqOn _
  have hidx₁ := field_eqOn (f := bitIdxF) hline (by decide)
  unfold replayIdx
  simp only [located_bind, located_loadField, located_ite, located_pure, setMem_nvm, hidx₁]
  refine ⟨fun hi => ?_, fun hi => absurd hidx hi⟩
  refine Located.of_spec (C := fun img => ∃ m₂, img = { w.nvm with mem := m₂ } ∧
    RunReplayed w.nvmStart w.nvm.mem m₂ p) (hmark _ hi fun m₂ heq₂ hbits₂ => ?_) (hloc _ hi _)
    fun e img himg hcut hplace => ?_
  · have hreplayed : RunReplayed w.nvmStart w.nvm.mem m₂ p := by
      refine ⟨by rwa [redoneWords, if_pos hpend, ← hm₁], fun j hj => ?_⟩
      rw [hbits₂ j hj, hbit, Function.update_apply, bitmapBit_eqOn hline hj]
      exact if_congr eq_comm rfl rfl
    exact ⟨⟨m₂, rfl, hreplayed⟩, hQ _ hreplayed⟩
  · obtain ⟨m₂, rfl, hm₂⟩ := hcut
    have hstage := ResetStage.fill m₂ (4096 * p) (Nat.zero_le 32)
    rw [fill_zero] at hstage
    cases e with
    | store a n img' =>
      obtain rfl := Option.some.inj himg
      exact hI (Or.inl ⟨by have := hplace.1; omega, by have := hplace.2; omega⟩) (.run rfl hm₂ hstage)
    | storeMeta img' => exact absurd hplace id
    | persist a n => exact absurd hplace id
    | persistMeta => exact absurd hplace id

/-- The redo of the run header on page `p`. -/
theorem replayRun_located (hhdr : HdrOk w.nvm.mem p (.run k))
    (hout : Pending w.nvm.mem p → Outside (recordedWords w.nvm.mem (4096 * p) runOn) (4096 * p) 64)
    (hI : AcceptsRedo I w p (.run k))
    (hQ : ∀ m', RunReplayed w.nvmStart w.nvm.mem m' p → Q () (w.setMem m')) :
    Located (replayRun (4096 * p)) I Q E w := by
  obtain ⟨hrun, hstate, hlt⟩ := hhdr
  have hslots := slotsPerRun_lt_of_runSize hrun.1
  -- without a commit nothing is replayed
  have hquiet : ¬ Pending w.nvm.mem p → Q () w := by
    intro hpend
    refine hQ w.nvm.mem ⟨?_, fun j _ => (redoneBit_of_not_pending hpend).symm⟩
    rw [redoneWords, if_neg hpend]
    exact EqOff.refl _ _ _
  unfold replayRun
  rw [located_bind, located_loadField]
  simp only [List.mem_cons, List.not_mem_nil, or_false] at hstate
  rcases hstate with hst | hst | hst | hst | hst
  · have hpend : ¬ Pending w.nvm.mem p := by rw [Pending, hst]; decide
    rw [hst, if_neg (by decide), if_neg (by decide), if_neg (by decide), if_neg (by decide),
      located_assertThat]
    exact ⟨fun _ => hquiet hpend, fun h => absurd rfl h⟩
  · have hpend : ¬ Pending w.nvm.mem p := by rw [Pending, hst]; decide
    rw [hst, if_pos (by decide), located_pure]
    exact hquiet hpend
  · have hpend : Pending w.nvm.mem p := Or.inl (by rw [hst]; rfl)
    have hidx := hlt (Or.inl hst)
    rw [hst, if_neg (by decide), if_pos (by decide)]
    refine redoBit_located hpend (by omega) (fun i hi => clearNvmBit_marks hi)
      (fun i hi w' => clearNvmBit_located hi) (fun j => ?_) (hout hpend) hI hQ
    simp [redoneBit, hst]
  · have hpend : ¬ Pending w.nvm.mem p := by rw [Pending, hst]; decide
    rw [hst, if_neg (by decide), if_neg (by decide), if_pos (by decide), located_pure]
    exact hquiet hpend
  · have hpend : Pending w.nvm.mem p := Or.inr (by rw [hst]; rfl)
    have hidx := hlt (Or.inr hst)
    rw [hst, if_neg (by decide), if_neg (by decide), if_neg (by decide), if_pos (by decide)]
    refine redoBit_located hpend (by omega) (fun i hi => setNvmBit_marks hi)
      (fun i hi w' => setNvmBit_located hi) (fun j => ?_) (hout hpend) hI hQ
    simp [redoneBit, hst]

/-- The world after the USAGE_RUN branch has built the VHeader `x` and put it on the list of its bin. -/
def World.pushNew (w : World) (x : ArenaRun) : World :=
  (w.addRun { x with next := (w.bin x.bin).runs }).setBin x.bin
    { w.bin x.bin with runs := some w.nVheaders }

theorem located_pushRun {x : ArenaRun} :
    Located (pushRun w.nVheaders) I Q E (w.addRun x) ↔ Q () (w.pushNew x) := by
  unfold pushRun
  rw [located_modify]
  have hx : (w.addRun x).vheaders w.nVheaders = x := Function.update_self ..
  have hbin : (w.addRun x).bin x.bin = w.bin x.bin := rfl
  simp only [hx, hbin]
  have hworld : { w.addRun x with
      vheaders := Function.update (w.addRun x).vheaders w.nVheaders
        { x with next := (w.bin x.bin).runs } }.setBin x.bin
      { w.bin x.bin with runs := some w.nVheaders } = w.pushNew x := by
    simp only [World.pushNew, World.addRun, Function.update_idem]
  rw [hworld]

/-- The fields that the USAGE_RUN branch resets, in the order of the source. -/
def resetRun (m : Mem) (h run cur : ℕ) : Mem :=
  store (store (store (store (fill m (h + runOn) 32) (h + versionF.off) versionF.width cur)
    (h + vdataF.off) vdataF.width run) (h + bitIdxF.off) bitIdxF.width bitIdxNone)
    (h + stateF.off) stateF.width (usageRun + stateInitialized)

/-- The USAGE_RUN branch of the log loop for the run on page `p`. -/
theorem recoverRun_located (hhdr : HdrOk w.nvm.mem p (.run k))
    (hout : Pending w.nvm.mem p → Outside (recordedWords w.nvm.mem (4096 * p) runOn) (4096 * p) 64)
    (hI : AcceptsRedo I w p (.run k))
    (hQ : ∀ m' x, RunFinal w.nvmStart w.nvm.mem m' p →
      field m' (4096 * p) versionF = w.currentVersion % 2 ^ 32 → Describes m' p x →
      Q () ((w.pushNew x).setMem m')) :
    Located (recoverRun (4096 * p)) I Q E w := by
  unfold recoverRun
  rw [located_bind]
  refine replayRun_located hhdr hout hI fun m₁ hm₁ => ?_
  have hrun₁ : RunHdr m₁ (4096 * p) := by
    have hrun := hhdr.1
    unfold RunHdr at hrun ⊢
    rwa [hm₁.field_eq hout (by decide), hm₁.field_eq hout (by decide)]
  rw [located_bind, located_arenaCreateRunHeader]
  refine ⟨fun _ => ?_, fun h => absurd hrun₁.binExists h⟩
  rw [located_bind, setMem_nvm]
  refine located_pushRun.mpr ?_
  have hcut : ∀ {a l j m'}, 4096 * p ≤ a → a + l ≤ 4096 * p + 64 → ResetStage m₁ m' (4096 * p) j →
      I (.store a l { w.nvm with mem := m' }) :=
    fun hlo hhi hs => hI (Or.inl ⟨hlo, hhi⟩) (.run rfl hm₁ hs)
  -- the index goes before the state
  have hs₁ := (ResetStage.fill m₁ (4096 * p) le_rfl).store (f := versionF) (v := w.currentVersion)
    (Or.inr (Or.inr (Or.inr (by decide))))
  have hs₂ := hs₁.store (f := vdataF) (v := w.nVheaders) (Or.inr (Or.inl (by decide)))
  have hs₃ := hs₂.store (f := bitIdxF) (Or.inr (Or.inr (Or.inl ⟨rfl, rfl⟩)))
  have hs₄ : ResetStage m₁ (resetRun m₁ (4096 * p) w.nVheaders w.currentVersion) (4096 * p) 32 :=
    hs₃.store (f := stateF) (Or.inl ⟨rfl, rfl⟩)
  simp only [located_bind, located_memset0, located_get, located_storeField, located_persist]
  refine ⟨fun j hj => hcut (by omega) (by simp only [runOn]; omega) (ResetStage.fill m₁ (4096 * p) hj),
    hcut (by omega) (by simp only [versionF]; omega) hs₁,
    hcut (by omega) (by simp only [vdataF]; omega) hs₂,
    hcut (by omega) (by simp only [bitIdxF]; omega) hs₃,
    hcut (by omega) (by simp only [stateF]; omega) hs₄,
    hQ (resetRun m₁ (4096 * p) w.nVheaders w.currentVersion) (headerRun m₁ (4096 * p))
    ⟨EqOff.trans (hm₁.off.mono (by omega) (by omega)) hs₄.off,
      fun x hlo hmid hhi => ?_, field_store_self, ?_, fun j hj => ?_, fun j hj => ?_⟩ ?_
      ((describes_headerRun m₁ p).congr (field_congr fun x hx hx' => hs₄.keep x ?_)
        (field_congr fun x hx hx' => hs₄.keep x ?_) (fun j hj => ?_)
        (slotsPerRun_lt_of_runSize hrun₁.1))⟩
  · rw [hs₄.keep x (by omega)]
    exact hm₁.line hout (by omega) (by omega) (by omega)
  · unfold resetRun
    rw [field_store_of_ne (by decide)]
    exact field_store_self
  · rw [hs₄.on j hj, if_pos hj]
  · rw [← hm₁.bits j hj]
    exact bitmapBit_congr (fun x hx hx' => hs₄.keep x (by omega)) hj
  · unfold resetRun
    rw [field_store_of_ne (by decide), field_store_of_ne (by decide), field_store_of_ne (by decide)]
    exact field_store_self
  · simp only [nBytesF] at hx hx'
    omega
  · simp only [runArenaIdF] at hx hx'
    omega
  · exact bitmapBit_congr (fun x hx hx' => hs₄.keep x (by omega)) hj

end

end NvmMalloc
