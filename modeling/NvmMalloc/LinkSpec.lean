import NvmMalloc.AllocateSpec

/-!
# The link protocol

Reference: `src/nvm_malloc.c` (`nvm_activate`, `nvm_free`), `src/arena.c` (`arena_free`).

The six activation and free paths record the links in the header, commit by moving the header to a
transient state, write the link words and settle the header.  The lemmas here say what a crash can find
at each stage: `ws` is the prefix of the link words that is already written, and the rest of NVM outside
the header line is as before the call.
-/

namespace NvmMalloc

open Memory CrashM

/-! ## Links -/

/-- The word a link stores. -/
def Link.word (nvmStart : ℕ) (l : Link) : ℕ × ℕ := (l.ptr, absToRelWithNull nvmStart l.target)

/-- The words the link arguments of a call make it store. -/
def linkWords (nvmStart : ℕ) : Option Link → Option Link → List (ℕ × ℕ)
  | none, _ => []
  | some l1, none => [l1.word nvmStart]
  | some l1, some l2 => [l1.word nvmStart, l2.word nvmStart]

theorem absToRelWithNull_lt {nvmStart p : ℕ} : absToRelWithNull nvmStart p < 2 ^ 64 := by
  unfold absToRelWithNull
  split <;> omega

/-- A link whose word lies in the heap, behind the first header. -/
def Link.InHeap (l : Link) : Prop := 0 < l.ptr ∧ l.ptr < 2 ^ 64

/-- The header at `h` has recorded the links.  Without a second link the second entry is what it was. -/
def Recorded (nvmStart : ℕ) (m₀ m : Mem) (h on : ℕ) (l1 l2 : Option Link) : Prop :=
  (l2 = none → field m₀ h (onPtrF on 1) = 0) → recordedWords m h on = linkWords nvmStart l1 l2

section

variable {C : Nvm → Prop} {E : Stop → Prop} {w : World} {m₀ m : Mem} {h on st : ℕ}
  {l1 l2 : Option Link}

/-- The two stores of `recordLink`. -/
theorem recordLink_spec {α : Type} {Q : α → World → Prop} {k : Unit → Prog α} {j : ℕ} {l : Link}
    (hl : l.InHeap) (hj : j < 2) (heq : EqOff m₀ m (h + on) 32)
    (hC : ∀ m', EqOff m₀ m' (h + on) 32 → C { w.nvm with mem := m' })
    (hrest : ∀ m', EqOff m₀ m' (h + on) 32 → field m' h (onPtrF on j) = l.ptr →
      field m' h (onValueF on j) = absToRelWithNull w.nvmStart l.target →
      (∀ f : NvmField, f.off + f.width ≤ on + 16 * j ∨ on + 16 * j + 16 ≤ f.off →
        field m' h f = field m h f) → Spec (k ()) C Q E (w.setMem m')) :
    Spec (recordLink h on j l >>= k) C Q E (w.setMem m) := by
  unfold recordLink
  rw [spec_bind, spec_bind, spec_get]
  refine spec_storeField_within hC heq (by simp only [onPtrF]; omega) (by simp only [onPtrF]; omega)
    fun m₁ hm₁ heq₁ => ?_
  rw [spec_storeField]
  have heq₂ := heq₁.store (absToRelWithNull w.nvmStart l.target) (b := h + (onValueF on j).off)
    (k := (onValueF on j).width) (by simp only [onValueF]; omega) (by simp only [onValueF]; omega)
  refine ⟨hC _ heq₂, hrest _ heq₂ ?_ ?_ fun f hf => ?_⟩
  · rw [setMem_nvm, field_store_of_ne (by simp only [onPtrF, onValueF]; omega), hm₁, field_store_self]
    exact Nat.mod_eq_of_lt hl.2
  · rw [setMem_nvm, field_store_self]
    exact Nat.mod_eq_of_lt absToRelWithNull_lt
  · rw [setMem_nvm, field_store_of_ne (by simp only [onValueF]; omega), hm₁,
      field_store_of_ne (by simp only [onPtrF]; omega)]

theorem spec_writeLink {Q : Unit → World → Prop} {l : Link} :
    Spec (writeLink l) C Q E w ↔
      C { w.nvm with mem := store w.nvm.mem l.ptr 8 (absToRelWithNull w.nvmStart l.target) } ∧
        Q () (w.setMem (store w.nvm.mem l.ptr 8 (absToRelWithNull w.nvmStart l.target))) := by
  unfold writeLink
  rw [spec_bind, spec_get, spec_bind, spec_storeAt]
  simp only [spec_persistAbs]

/-- What a crash finds in `linkProtocol` after the commit, when the words `ws` are written. -/
def Committed (nvmStart : ℕ) (m₀ : Mem) (h on st : ℕ) (l1 l2 : Option Link) (ws : List (ℕ × ℕ))
    (m : Mem) : Prop :=
  l1.isSome ∧ ∃ m₁, EqOff m₀ m₁ (h + on) 32 ∧ Recorded nvmStart m₀ m₁ h on l1 l2 ∧
    m = storeWords (store m₁ (h + stateF.off) stateF.width st) ws

/-- After the links are recorded: the commit and the link words. -/
theorem commitLinks_spec {x : Link} {m₁ : Mem} (l2 : Option Link) (heq : EqOff m₀ m₁ (h + on) 32)
    (hrec : Recorded w.nvmStart m₀ m₁ h on (some x) l2)
    (hC : ∀ ws m, ws <+: linkWords w.nvmStart (some x) l2 →
      Committed w.nvmStart m₀ h on st (some x) l2 ws m → C { w.nvm with mem := m }) :
    Spec (do
      storeField h stateF st
      writeLink x
      match l2 with
      | none => pure ()
      | some y => writeLink y) C
      (fun _ w' => ∃ m, Committed w.nvmStart m₀ h on st (some x) l2
        (linkWords w.nvmStart (some x) l2) m ∧ w' = w.setMem m) E (w.setMem m₁) := by
  refine spec_storeField_then fun m₂ hm₂ => ⟨hC [] m₂ List.nil_prefix ⟨rfl, m₁, heq, hrec, hm₂⟩, ?_⟩
  obtain ⟨m₃, hm₃⟩ : ∃ m₃, m₃ = store m₂ x.ptr 8 (absToRelWithNull w.nvmStart x.target) := ⟨_, rfl⟩
  have hstage : Committed w.nvmStart m₀ h on st (some x) l2 [x.word w.nvmStart] m₃ :=
    ⟨rfl, m₁, heq, hrec, by rw [hm₃, hm₂]; rfl⟩
  rw [spec_bind, spec_writeLink, setMem_nvm, setMem_setMem, setMem_nvmStart, ← hm₃]
  cases l2 with
  | none =>
    refine ⟨hC _ m₃ (List.prefix_refl _) hstage, ?_⟩
    rw [spec_pure]
    exact ⟨m₃, hstage, rfl⟩
  | some y =>
    refine ⟨hC _ m₃ ⟨[y.word w.nvmStart], rfl⟩ hstage, ?_⟩
    have hstage' : Committed w.nvmStart m₀ h on st (some x) (some y)
        [x.word w.nvmStart, y.word w.nvmStart]
        (store m₃ y.ptr 8 (absToRelWithNull w.nvmStart y.target)) :=
      ⟨rfl, m₁, heq, hrec, by rw [hm₃, hm₂]; rfl⟩
    rw [spec_writeLink]
    exact ⟨hC _ _ (List.prefix_refl _) hstage', _, hstage', rfl⟩

/-- The link part of the six protocols. -/
theorem linkProtocol_spec (h1 : ∀ x ∈ l1, x.InHeap) (h2 : ∀ x ∈ l2, x.InHeap)
    (hrecord : ∀ m, EqOff m₀ m (h + on) 32 → C { w.nvm with mem := m })
    (hcommit : ∀ ws m, ws <+: linkWords w.nvmStart l1 l2 →
      Committed w.nvmStart m₀ h on st l1 l2 ws m → C { w.nvm with mem := m }) :
    Spec (linkProtocol h on st l1 l2) C
      (fun _ w' => ∃ m, w' = w.setMem m ∧ (l1 = none ∧ m = m₀ ∨
        Committed w.nvmStart m₀ h on st l1 l2 (linkWords w.nvmStart l1 l2) m)) E (w.setMem m₀) := by
  unfold linkProtocol
  cases l1 with
  | none =>
    rw [spec_pure]
    exact ⟨m₀, rfl, Or.inl ⟨rfl, rfl⟩⟩
  | some x =>
    have hx := h1 x rfl
    refine recordLink_spec hx (by omega) (EqOff.refl _ _ _) hrecord fun m₁ heq₁ hp₁ hv₁ hf₁ => ?_
    cases l2 with
    | none =>
      have hrec : Recorded w.nvmStart m₀ m₁ h on (some x) none := by
        intro hstale
        have hzero : field m₁ h (onPtrF on 1) = 0 := by
          rw [hf₁ _ (by simp only [onPtrF]; omega), hstale rfl]
        simp only [recordedWords, hp₁, hv₁, hzero, if_neg hx.1.ne', if_true]
        rfl
      refine (commitLinks_spec none heq₁ hrec hcommit).imp ?_
      rintro _ w' ⟨m, hm, rfl⟩
      exact ⟨m, rfl, Or.inr hm⟩
    | some y =>
      have hy := h2 y rfl
      refine recordLink_spec hy (by omega) heq₁ hrecord fun m₂ heq₂ hp₂ hv₂ hf₂ => ?_
      have hrec : Recorded w.nvmStart m₀ m₂ h on (some x) (some y) := by
        intro _
        have hp₁' : field m₂ h (onPtrF on 0) = x.ptr := by
          rw [hf₂ _ (by simp only [onPtrF]; omega), hp₁]
        have hv₁' : field m₂ h (onValueF on 0) = absToRelWithNull w.nvmStart x.target := by
          rw [hf₂ _ (by simp only [onValueF]; omega), hv₁]
        simp only [recordedWords, hp₁', hv₁', hp₂, hv₂, if_neg hx.1.ne', if_neg hy.1.ne']
        rfl
      refine (commitLinks_spec (some y) heq₂ hrec hcommit).imp ?_
      rintro _ w' ⟨m, hm, rfl⟩
      exact ⟨m, rfl, Or.inr hm⟩

end

/-! ## Block and huge headers -/

/-- The words `ws` are written, and the header at `h` is in state `st` with its other fields kept, the
`on` array apart. -/
structure HdrStage (m₀ : Mem) (h : ℕ) (ws : List (ℕ × ℕ)) (st : ℕ) (m : Mem) : Prop where
  off : EqOff (storeWords m₀ ws) m h 64
  state : field m h stateF = st
  keep : ∀ x, h + 1 ≤ x → x < h + 8 ∨ h + 40 ≤ x → x < h + 64 → m x = m₀ x

/-- The kept fields of a block or huge header. -/
theorem HdrStage.field_eq {m₀ m : Mem} {h st : ℕ} {ws : List (ℕ × ℕ)}
    (hs : HdrStage m₀ h ws st m) {f : NvmField}
    (hf : 1 ≤ f.off ∧ (f.off + f.width ≤ 8 ∨ 40 ≤ f.off) ∧ f.off + f.width ≤ 64) :
    field m h f = field m₀ h f :=
  field_congr fun x hx hx' => hs.keep x (by omega) (by omega) (by omega)

/-- What a crash can find inside `commitHeader`. -/
inductive HdrProgress (nvmStart : ℕ) (m₀ : Mem) (h committed final : ℕ) (l1 l2 : Option Link)
    (m : Mem) : Prop where
  | before (hstage : HdrStage m₀ h [] (field m₀ h stateF) m)
  | committed {ws : List (ℕ × ℕ)} (hlink : l1.isSome) (hws : ws <+: linkWords nvmStart l1 l2)
      (hstage : HdrStage m₀ h ws committed m) (hrec : Recorded nvmStart m₀ m h blockOn l1 l2)
  | final (hstage : HdrStage m₀ h (linkWords nvmStart l1 l2) final m)

section

variable {C : Nvm → Prop} {E : Stop → Prop} {w : World} {m₀ m m₁ : Mem} {h on st : ℕ}
  {l1 l2 : Option Link} {ws : List (ℕ × ℕ)}

/-- The recorded links depend on the header line only. -/
theorem recordedWords_congr {m' : Mem} (heq : EqOn m m' (h + on) 32) :
    recordedWords m' h on = recordedWords m h on := by
  have hfield : ∀ f : NvmField, on ≤ f.off → f.off + f.width ≤ on + 32 →
      field m' h f = field m h f :=
    fun f hlo hhi => field_congr (heq.mono (by omega) (by omega))
  simp only [recordedWords, hfield (onPtrF on 0) (by simp [onPtrF]) (by simp [onPtrF]),
    hfield (onPtrF on 1) (by simp [onPtrF]) (by simp only [onPtrF]; omega),
    hfield (onValueF on 0) (by simp only [onValueF]; omega) (by simp only [onValueF]; omega),
    hfield (onValueF on 1) (by simp only [onValueF]; omega) (by simp only [onValueF]; omega)]

/-- The memory after the commit: header line, recorded links, the rest. -/
theorem Committed.facts {nvmStart : ℕ} (hm : Committed nvmStart m₀ h on st l1 l2 ws m)
    (hws : Outside ws h 64) (hon : 1 ≤ on) (hon' : on + 32 ≤ 64) :
    EqOff (storeWords m₀ ws) m h 64 ∧ field m h stateF = st % 256 ∧
      (∀ x, h + 1 ≤ x → x < h + on ∨ h + on + 32 ≤ x → x < h + 64 → m x = m₀ x) ∧
      Recorded nvmStart m₀ m h on l1 l2 := by
  obtain ⟨-, m₁, heq, hrec, rfl⟩ := hm
  have hline := hws.eqOn (store m₁ (h + stateF.off) stateF.width st)
  refine ⟨?_, ?_, fun x hx hx' hx'' => ?_, fun hstale => ?_⟩
  · refine EqOff.storeWords ?_ ws
    exact (heq.mono (by omega) (by omega)).store _ (by simp only [stateF]; omega)
      (by simp only [stateF]; omega)
  · rw [field_eqOn hline (by decide), field_store_self]
    rfl
  · rw [hline x (by omega) (by omega), store_eqOff _ _ _ _ x (by simp only [stateF]; omega)]
    exact heq x (by omega)
  · rw [recordedWords_congr (hline.mono (by omega) (by omega)),
      recordedWords_congr ((store_eqOff m₁ _ _ _).eqOn (by simp only [stateF]; omega))]
    exact hrec hstale

/-- The protocol of block and huge headers. -/
theorem commitHeader_spec {committed final : ℕ} (h1 : ∀ x ∈ l1, x.InHeap) (h2 : ∀ x ∈ l2, x.InHeap)
    (hout : Outside (linkWords w.nvmStart l1 l2) h 64) (hcommitted : committed < 256)
    (hfinal : final < 256)
    (hC : ∀ m, HdrProgress w.nvmStart m₀ h committed final l1 l2 m → C { w.nvm with mem := m }) :
    Spec (commitHeader h committed final l1 l2) C
      (fun _ w' => ∃ m, w' = w.setMem m ∧
        HdrStage m₀ h (linkWords w.nvmStart l1 l2) final m ∧ OnZero m h blockOn) E (w.setMem m₀) := by
  unfold commitHeader
  refine (linkProtocol_spec h1 h2 (fun m heq => hC m (.before ⟨?_, ?_, ?_⟩))
    fun ws m hpre hm => ?_).bind ?_
  · exact heq.mono (by omega) (by simp only [blockOn]; omega)
  · exact field_congr (heq.eqOn (by simp only [stateF, blockOn]; omega))
  · exact fun x hx hx' hx'' => heq x (by simp only [blockOn]; omega)
  · obtain ⟨hoff, hstate, hkeep, hrec⟩ :=
      hm.facts (hout.of_prefix hpre) (by decide) (by decide)
    refine hC m (.committed hm.1 hpre ⟨hoff, ?_, hkeep⟩ hrec)
    rw [hstate, Nat.mod_eq_of_lt hcommitted]
  rintro _ _ ⟨m₁, rfl, hm₁⟩
  -- either way the words are written and the header line is as before, state and `on` apart
  have hkeep₁ : EqOff (storeWords m₀ (linkWords w.nvmStart l1 l2)) m₁ h 64 ∧
      ∀ x, h + 1 ≤ x → x < h + 8 ∨ h + 40 ≤ x → x < h + 64 → m₁ x = m₀ x := by
    rcases hm₁ with ⟨rfl, rfl⟩ | hm₁
    · exact ⟨EqOff.refl _ _ _, fun _ _ _ _ => rfl⟩
    · obtain ⟨hoff, -, hkeep, -⟩ := hm₁.facts hout (by decide) (by decide)
      exact ⟨hoff, hkeep⟩
  have hstage : ∀ m, EqOff m₁ m h 1 → field m h stateF = final → ∀ j ≤ 32,
      HdrStage m₀ h (linkWords w.nvmStart l1 l2) final (fill m (h + blockOn) j) := by
    intro m heq hst j hj
    refine ⟨?_, ?_, fun x hx hx' hx'' => ?_⟩
    · exact (hkeep₁.1.trans (heq.mono le_rfl (by omega))).fill (by omega) (by simp only [blockOn]; omega)
    · rw [field_fill_of_ne (by simp only [stateF, blockOn]; omega), hst]
    · rw [fill_eqOff _ _ _ x (by simp only [blockOn]; omega), heq x (by omega)]
      exact hkeep₁.2 x hx hx' hx''
  refine spec_storeField_then fun m₂ hm₂ => ?_
  have heq₂ : EqOff m₁ m₂ h 1 :=
    hm₂ ▸ (EqOff.refl _ _ _).store _ (by omega) (by simp only [stateF]; omega)
  have hst₂ : field m₂ h stateF = final := by
    rw [hm₂, field_store_self]
    exact Nat.mod_eq_of_lt hfinal
  have hstage₂ := hstage m₂ heq₂ hst₂
  refine ⟨hC m₂ (.final ?_), spec_memset0_then (fun j hj => hC _ (.final (hstage₂ _ (by omega))))
    fun m₃ hm₃ => ?_⟩
  · have := hstage₂ 0 (by omega)
    rwa [fill_zero] at this
  · rw [spec_persist]
    refine ⟨m₃, rfl, hm₃ ▸ hstage₂ 32 le_rfl, fun k hk => ?_⟩
    rw [hm₃]
    exact fill_apply (by omega) (by omega)

end

/-! ## Run headers -/

/-- The program `mark` sets bit `i` of the run header at `h` to `b`. -/
def Marks (mark : Prog Unit) (h i : ℕ) (b : Bool) : Prop :=
  ∀ {C : Nvm → Prop} {Q : Unit → World → Prop} {E : Stop → Prop} {w : World} {m : Mem},
    (∀ m', EqOff m m' (h + 48) 8 →
      (∀ j < 64, bitmapBit m' h j = Function.update (bitmapBit m h) i b j) →
      C { w.nvm with mem := m' } ∧ Q () (w.setMem m')) → Spec mark C Q E (w.setMem m)

/-- A bit of a byte with one bit changed. -/
theorem testBit_setBit (x k : ℕ) {j : ℕ} (hj : j < 8) :
    ((x ||| 1 <<< k) % 256 ^ 1).testBit j = (x.testBit j || decide (j = k)) := by
  rw [show 256 ^ 1 = 2 ^ 8 from rfl, Nat.testBit_mod_two_pow, Nat.testBit_or, Nat.one_shiftLeft,
    Nat.testBit_two_pow, decide_eq_true hj, Bool.true_and]
  simp only [eq_comm]

theorem testBit_clearBit (x k : ℕ) {j : ℕ} (hj : j < 8) :
    ((x &&& (255 ^^^ 1 <<< k)) % 256 ^ 1).testBit j = (x.testBit j && !decide (j = k)) := by
  rw [show 256 ^ 1 = 2 ^ 8 from rfl, Nat.testBit_mod_two_pow, Nat.testBit_and, Nat.testBit_xor,
    show 255 = 2 ^ 8 - 1 from rfl, Nat.testBit_two_pow_sub_one, Nat.one_shiftLeft, Nat.testBit_two_pow,
    decide_eq_true hj, Bool.true_and, Bool.true_xor]
  simp only [eq_comm]

section

variable {h i : ℕ}

/-- The bitmap after a store to one of its bytes. -/
theorem bitmapBit_store {m : Mem} {v j : ℕ} :
    bitmapBit (store m (h + (bitmapF (i / 8)).off) (bitmapF (i / 8)).width v) h j =
      if j / 8 = i / 8 then (v % 256 ^ 1).testBit (j % 8) else bitmapBit m h j := by
  unfold bitmapBit
  split
  · rename_i heq
    rw [heq, field_store_self]
    rfl
  · rw [field_store_of_ne (by simp only [bitmapF]; omega)]

theorem setNvmBit_marks (hi : i < 64) : Marks (setNvmBit h i) h i true := by
  intro C Q E w m hrest
  unfold setNvmBit
  rw [spec_bind, spec_loadField, spec_storeField]
  refine hrest _ ?_ fun j _ => ?_
  · exact (EqOff.refl _ _ _).store _ (by simp only [bitmapF]; omega) (by simp only [bitmapF]; omega)
  · rw [bitmapBit_store]
    by_cases hji : j = i
    · subst hji
      rw [if_pos rfl, Function.update_self, testBit_setBit _ _ (by omega)]
      simp
    · rw [Function.update_of_ne hji]
      split
      · rename_i heq
        rw [testBit_setBit _ _ (by omega), ← heq, decide_eq_false (by omega), Bool.or_false]
        rfl
      · rfl

theorem clearNvmBit_marks (hi : i < 64) : Marks (clearNvmBit h i) h i false := by
  intro C Q E w m hrest
  unfold clearNvmBit
  rw [spec_bind, spec_loadField, spec_storeField]
  refine hrest _ ?_ fun j _ => ?_
  · exact (EqOff.refl _ _ _).store _ (by simp only [bitmapF]; omega) (by simp only [bitmapF]; omega)
  · rw [bitmapBit_store]
    by_cases hji : j = i
    · subst hji
      rw [if_pos rfl, Function.update_self, testBit_clearBit _ _ (by omega)]
      simp
    · rw [Function.update_of_ne hji]
      split
      · rename_i heq
        rw [testBit_clearBit _ _ (by omega), ← heq, decide_eq_false (by omega),
          Bool.not_false, Bool.and_true]
        rfl
      · rfl

/-- The words `ws` are written, and the run header at `h` is in state `st` with this bitmap and its other
fields kept, the `on` array and the bit index apart. -/
structure RunStage (m₀ : Mem) (h : ℕ) (ws : List (ℕ × ℕ)) (st : ℕ) (bits : ℕ → Bool) (m : Mem) :
    Prop where
  off : EqOff (storeWords m₀ ws) m h 64
  state : field m h stateF = st
  keep : ∀ x, h + 1 ≤ x → x < h + 16 ∨ h + 58 ≤ x → x < h + 64 → m x = m₀ x
  bits : ∀ j < 64, bitmapBit m h j = bits j

/-- What a crash can find inside `commitRun`, when it sets bit `i` to `b`. -/
inductive RunProgress (nvmStart : ℕ) (m₀ : Mem) (h committed i : ℕ) (b : Bool) (l1 l2 : Option Link)
    (m : Mem) : Prop where
  | before (hstage : RunStage m₀ h [] (field m₀ h stateF) (bitmapBit m₀ h) m)
  | committed {ws : List (ℕ × ℕ)} {bits : ℕ → Bool} (hlink : l1.isSome)
      (hws : ws <+: linkWords nvmStart l1 l2) (hstage : RunStage m₀ h ws committed bits m)
      (hbits : bits = bitmapBit m₀ h ∨ bits = Function.update (bitmapBit m₀ h) i b)
      (hidx : field m h bitIdxF = i) (hrec : Recorded nvmStart m₀ m h runOn l1 l2)
  | marked (hlink : l1 = none)
      (hstage : RunStage m₀ h [] (field m₀ h stateF) (Function.update (bitmapBit m₀ h) i b) m)
  | final (hstage : RunStage m₀ h (linkWords nvmStart l1 l2) (usageRun + stateInitialized)
      (Function.update (bitmapBit m₀ h) i b) m)

/-- The bitmap depends on its bytes only. -/
theorem bitmapBit_congr {m m' : Mem} (heq : EqOn m m' (h + 48) 8) {j : ℕ} (hj : j < 64) :
    bitmapBit m' h j = bitmapBit m h j := by
  unfold bitmapBit
  rw [field_congr (heq.mono (by simp only [bitmapF]; omega) (by simp only [bitmapF]; omega))]

/-- A change of the `on` array and the bit index. -/
theorem RunStage.clean {m₀ m m' : Mem} {ws : List (ℕ × ℕ)} {st : ℕ} {bits : ℕ → Bool}
    (hs : RunStage m₀ h ws st bits m)
    (heq : ∀ x, x < h + 16 ∨ (h + 48 ≤ x ∧ x < h + 56) ∨ h + 58 ≤ x → m' x = m x) :
    RunStage m₀ h ws st bits m' where
  off x hx := (heq x (by omega)).trans (hs.off x hx)
  state := by
    rw [← hs.state]
    exact field_congr fun x _ hx' => heq x (by simp only [stateF] at hx'; omega)
  keep x hx hx' hx'' := (heq x (by omega)).trans (hs.keep x hx hx' hx'')
  bits j hj := by
    rw [← hs.bits j hj]
    exact bitmapBit_congr (fun x hx hx' => heq x (by omega)) hj

/-- The protocol of run headers. -/
theorem commitRun_spec {C : Nvm → Prop} {E : Stop → Prop} {w : World} {m₀ : Mem} {committed : ℕ}
    {b : Bool} {mark : Prog Unit} {l1 l2 : Option Link} (hmark : Marks mark h i b) (hi : i < 64)
    (h1 : ∀ x ∈ l1, x.InHeap) (h2 : ∀ x ∈ l2, x.InHeap)
    (hout : Outside (linkWords w.nvmStart l1 l2) h 64) (hcommitted : committed < 256)
    (hC : ∀ m, RunProgress w.nvmStart m₀ h committed i b l1 l2 m → C { w.nvm with mem := m }) :
    Spec (commitRun h committed i mark l1 l2) C
      (fun _ w' => ∃ m, w' = w.setMem m ∧
        RunStage m₀ h (linkWords w.nvmStart l1 l2) (usageRun + stateInitialized)
          (Function.update (bitmapBit m₀ h) i b) m ∧ OnZero m h runOn) E (w.setMem m₀) := by
  have hbefore₀ : RunStage m₀ h [] (field m₀ h stateF) (bitmapBit m₀ h) m₀ :=
    ⟨EqOff.refl _ _ _, rfl, fun _ _ _ _ => rfl, fun _ _ => rfl⟩
  unfold commitRun
  refine spec_storeField_then fun m₁ hm₁ => ?_
  have heq₁ : EqOff m₀ m₁ (h + 56) 2 :=
    hm₁ ▸ (EqOff.refl _ _ _).store _ (by simp only [bitIdxF]; omega) (by simp only [bitIdxF]; omega)
  have hidx₁ : field m₁ h bitIdxF = i := by
    rw [hm₁, field_store_self]
    exact Nat.mod_eq_of_lt (by simp only [bitIdxF]; omega)
  have hbefore₁ := hbefore₀.clean fun x hx => heq₁ x (by omega)
  refine ⟨hC m₁ (.before hbefore₁), ?_⟩
  -- the stages after the commit, seen from the memory before the bit index was written
  have hfacts : ∀ ws m, ws <+: linkWords w.nvmStart l1 l2 →
      Committed w.nvmStart m₁ h runOn committed l1 l2 ws m →
      RunStage m₀ h ws committed (bitmapBit m₀ h) m ∧ field m h bitIdxF = i ∧
        Recorded w.nvmStart m₀ m h runOn l1 l2 := by
    intro ws m hpre hm
    obtain ⟨hoff, hstate, hkeep, hrec⟩ := hm.facts (hout.of_prefix hpre) (by decide) (by decide)
    have hkeep' : ∀ x, h + 1 ≤ x → x < h + 16 ∨ h + 48 ≤ x → x < h + 64 → m x = m₁ x := hkeep
    refine ⟨⟨?_, ?_, fun x hx hx' hx'' => ?_, fun j hj => ?_⟩, ?_, fun hstale => hrec fun hl2 => ?_⟩
    · exact ((heq₁.mono (by omega) (by omega)).storeWords ws).trans hoff
    · rw [hstate, Nat.mod_eq_of_lt hcommitted]
    · rw [hkeep' x hx (by omega) hx'', heq₁ x (by omega)]
    · rw [bitmapBit_congr (fun x hx hx' => hkeep' x (by omega) (by omega) (by omega)) hj]
      exact hbefore₁.bits j hj
    · rw [← hidx₁]
      exact field_congr fun x hx hx' => hkeep' x (by simp only [bitIdxF] at hx; omega)
        (by simp only [bitIdxF] at hx; omega) (by simp only [bitIdxF] at hx'; omega)
    · rw [← hstale hl2]
      exact field_congr (heq₁.eqOn (by simp only [onPtrF, runOn]; omega))
  refine (linkProtocol_spec h1 h2 (fun m heq => hC m (.before ?_)) fun ws m hpre hm => ?_).bind ?_
  · simp only [runOn] at heq
    exact hbefore₁.clean fun x hx => heq x (by omega)
  · obtain ⟨hstage, hidx, hrec⟩ := hfacts ws m hpre hm
    exact hC m (.committed hm.1 hpre hstage (Or.inl rfl) hidx hrec)
  rintro _ _ ⟨m₂, rfl, hm₂⟩
  refine spec_bind.mpr (hmark fun m₃ heq₃ hbits₃ => ?_)
  have hidx₃ : field m₃ h bitIdxF = field m₂ h bitIdxF :=
    field_congr (heq₃.eqOn (by simp only [bitIdxF]; omega))
  -- marking the slot in the stage reached
  have hmarked : ∀ {ws st}, RunStage m₀ h ws st (bitmapBit m₀ h) m₂ →
      RunStage m₀ h ws st (Function.update (bitmapBit m₀ h) i b) m₃ := by
    intro ws st hs
    refine ⟨hs.off.trans (heq₃.mono (by omega) (by omega)), ?_, fun x hx hx' hx'' => ?_, fun j hj => ?_⟩
    · rw [← hs.state]
      exact field_congr (heq₃.eqOn (by simp only [stateF]; omega))
    · rw [heq₃ x (by omega)]
      exact hs.keep x hx hx' hx''
    · rw [hbits₃ j hj]
      by_cases hji : j = i
      · rw [hji, Function.update_self, Function.update_self]
      · rw [Function.update_of_ne hji, Function.update_of_ne hji, hs.bits j hj]
  have hstage₃ : ∃ st, RunStage m₀ h (linkWords w.nvmStart l1 l2) st
      (Function.update (bitmapBit m₀ h) i b) m₃ ∧ C { w.nvm with mem := m₃ } := by
    rcases hm₂ with ⟨rfl, rfl⟩ | hm₂
    · have hs := hmarked hbefore₁
      exact ⟨_, hs, hC m₃ (.marked rfl hs)⟩
    · obtain ⟨hstage, hidx, hrec⟩ := hfacts _ m₂ (List.prefix_refl _) hm₂
      refine ⟨_, hmarked hstage, hC m₃ (.committed hm₂.1 (List.prefix_refl _) (hmarked hstage)
        (Or.inr rfl) (hidx₃.trans hidx) fun hstale => ?_)⟩
      rw [recordedWords_congr (heq₃.eqOn (by simp only [runOn]; omega))]
      exact hrec hstale
  obtain ⟨st, hstage₃, hcrash₃⟩ := hstage₃
  refine ⟨hcrash₃, spec_storeField_then fun m₄ hm₄ => ?_⟩
  have heq₄ : EqOff m₃ m₄ h 1 :=
    hm₄ ▸ (EqOff.refl _ _ _).store _ (by omega) (by simp only [stateF]; omega)
  have hstage₄ : RunStage m₀ h (linkWords w.nvmStart l1 l2) (usageRun + stateInitialized)
      (Function.update (bitmapBit m₀ h) i b) m₄ := by
    refine ⟨hstage₃.off.trans (heq₄.mono le_rfl (by omega)), ?_, fun x hx hx' hx'' => ?_, fun j hj => ?_⟩
    · rw [hm₄, field_store_self]
      rfl
    · rw [heq₄ x (by omega)]
      exact hstage₃.keep x hx hx' hx''
    · rw [bitmapBit_congr (heq₄.eqOn (by omega)) hj]
      exact hstage₃.bits j hj
  refine ⟨hC m₄ (.final hstage₄), spec_storeField_then fun m₅ hm₅ => ?_⟩
  have heq₅ : EqOff m₄ m₅ (h + 56) 2 :=
    hm₅ ▸ (EqOff.refl _ _ _).store _ (by simp only [bitIdxF]; omega) (by simp only [bitIdxF]; omega)
  have hstage₅ := hstage₄.clean fun x hx => heq₅ x (by omega)
  have hfill : ∀ j ≤ 32, RunStage m₀ h (linkWords w.nvmStart l1 l2) (usageRun + stateInitialized)
      (Function.update (bitmapBit m₀ h) i b) (fill m₅ (h + runOn) j) := fun j hj =>
    hstage₅.clean fun x hx => fill_eqOff _ _ _ x (by simp only [runOn]; omega)
  refine ⟨hC m₅ (.final hstage₅), spec_memset0_then (fun j hj => hC _ (.final (hfill _ (by omega))))
    fun m₆ hm₆ => ?_⟩
  rw [spec_persist]
  refine ⟨m₆, rfl, hm₆ ▸ hfill 32 le_rfl, fun k hk => ?_⟩
  rw [hm₆]
  exact fill_apply (by omega) (by omega)

end

end NvmMalloc
