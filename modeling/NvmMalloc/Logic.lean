import NvmMalloc.System

/-!
# Rules for the library's programs

`Spec p C Q E w` specialises the weakest precondition of `CrashM` to NVM: every image a store of `p`
leaves satisfies `C`, a normal return satisfies `Q`, an early stop satisfies `E`.  Flushes leave no
image, so under strict persist order they are skipped.
-/

namespace NvmMalloc

open Memory CrashM

/-- Lift a condition on images to events. -/
def OnImage (C : Nvm → Prop) (e : Event) : Prop := ∀ img, e.image? = some img → C img

/-- Started in `w`, every image of `p` satisfies `C`, its return `Q` and its early stop `E`. -/
def Spec {α : Type} (p : Prog α) (C : Nvm → Prop) (Q : α → World → Prop) (E : Stop → Prop)
    (w : World) : Prop :=
  wp p (OnImage C) Q E w

section

variable {α β : Type} {p : Prog α} {f : α → Prog β} {C C' : Nvm → Prop} {Q Q' : α → World → Prop}
  {R : β → World → Prop} {U : Unit → World → Prop} {E E' : Stop → Prop} {w : World}

theorem onImage_store {a n : ℕ} {img : Nvm} : OnImage C (.store a n img) ↔ C img := by
  simp [OnImage, Event.image?]

theorem onImage_storeMeta {img : Nvm} : OnImage C (.storeMeta img) ↔ C img := by
  simp [OnImage, Event.image?]

theorem onImage_persist {a n : ℕ} : OnImage C (.persist a n) ↔ True := by
  simp [OnImage, Event.image?]

theorem onImage_persistMeta : OnImage C .persistMeta ↔ True := by
  simp [OnImage, Event.image?]

@[simp] theorem spec_pure {a : α} : Spec (pure a) C Q E w ↔ Q a w := wp_pure

@[simp] theorem spec_bind :
    Spec (p >>= f) C R E w ↔ Spec p C (fun a w' => Spec (f a) C R E w') E w := wp_bind

@[simp] theorem spec_get {Q : World → World → Prop} : Spec get C Q E w ↔ Q w w := wp_get

@[simp] theorem spec_modify {g : World → World} : Spec (modify g) C U E w ↔ U () (g w) := wp_modify

@[simp] theorem spec_throw {e : Stop} : Spec (throw e) C Q E w ↔ E e := wp_throw

@[simp] theorem spec_ite {c : Prop} [Decidable c] {q : Prog α} :
    Spec (if c then p else q) C Q E w ↔ (c → Spec p C Q E w) ∧ (¬ c → Spec q C Q E w) := wp_ite

/-- A store to the meta file or a change of the size of the backing file. -/
@[simp] theorem spec_commitMeta {g : World → World} :
    Spec (commit (fun w => .storeMeta w.nvm) g) C U E w ↔ C (g w).nvm ∧ U () (g w) := by
  unfold Spec
  rw [wp_commit, onImage_storeMeta]

@[simp] theorem spec_storeAt {a n v : ℕ} :
    Spec (storeAt a n v) C U E w ↔
      C { w.nvm with mem := store w.nvm.mem a n v } ∧ U () (w.setMem (store w.nvm.mem a n v)) := by
  unfold Spec storeAt
  rw [wp_commit, onImage_store]
  rfl

@[simp] theorem spec_storeField {h v : ℕ} {f : NvmField} :
    Spec (storeField h f v) C U E w ↔
      C { w.nvm with mem := store w.nvm.mem (h + f.off) f.width v } ∧
        U () (w.setMem (store w.nvm.mem (h + f.off) f.width v)) := spec_storeAt

@[simp] theorem spec_memset0 {a n : ℕ} :
    Spec (memset0 a n) C U E w ↔
      (∀ k < n, C { w.nvm with mem := fill w.nvm.mem a (k + 1) }) ∧
        U () (w.setMem (fill w.nvm.mem a n)) := by
  unfold Spec memset0
  rw [wp_commits]
  simp only [onImage_store]
  rfl

@[simp] theorem spec_storeLog {i v : ℕ} :
    Spec (storeLog i v) C U E w ↔
      C { w.nvm with log := Function.update w.nvm.log i v } ∧
        U () { w with nvm := { w.nvm with log := Function.update w.nvm.log i v } } := spec_commitMeta

@[simp] theorem spec_persistRange {a n : ℕ} : Spec (persistRange a n) C U E w ↔ U () w := by
  unfold Spec persistRange
  rw [wp_emit, onImage_persist, true_and]

@[simp] theorem spec_persist {a : ℕ} : Spec (persist a) C U E w ↔ U () w := spec_persistRange

@[simp] theorem spec_persistAbs {a : ℕ} : Spec (persistAbs a) C U E w ↔ U () w := by
  unfold Spec persistAbs
  rw [wp_emit, onImage_persist, true_and]

@[simp] theorem spec_persistMeta : Spec persistMeta C U E w ↔ U () w := by
  unfold Spec persistMeta
  rw [wp_emit, onImage_persistMeta, true_and]

@[simp] theorem spec_loadField {h : ℕ} {f : NvmField} {Q : ℕ → World → Prop} :
    Spec (loadField h f) C Q E w ↔ Q (field w.nvm.mem h f) w := by
  unfold loadField
  rw [spec_bind, spec_get, spec_pure]

@[simp] theorem spec_assertThat {c : Prop} [Decidable c] :
    Spec (assertThat c) C U E w ↔ (c → U () w) ∧ (¬ c → E .assertFailed) := by
  unfold assertThat
  rw [spec_ite, spec_pure, spec_throw]

/-- Weaken what is known about images, returns and stops. -/
theorem Spec.mono (h : Spec p C Q E w) (hC : ∀ img, C img → C' img)
    (hQ : ∀ a w', Q a w' → Q' a w') (hE : ∀ e, E e → E' e) : Spec p C' Q' E' w :=
  wp_mono h (fun _ hi img himg => hC img (hi img himg)) hQ hE

/-- Weaken only what is known about the return. -/
theorem Spec.imp (h : Spec p C Q E w) (hQ : ∀ a w', Q a w' → Q' a w') : Spec p C Q' E w :=
  h.mono (fun _ hi => hi) hQ fun _ he => he

/-- Run a program whose specification is known, then the rest. -/
theorem Spec.bind (h : Spec p C Q E w) (hf : ∀ a w', Q a w' → Spec (f a) C R E w') :
    Spec (p >>= f) C R E w :=
  spec_bind.mpr (h.imp hf)

/-- What a specification says about one normal return. -/
theorem Spec.result (h : Spec p C Q E w) {a : α} {w' : World} (hr : (p w).2 = .ok (a, w')) :
    Q a w' :=
  wp_result h hr

/-- What a specification says about an early stop. -/
theorem Spec.stop (h : Spec p C Q E w) {e : Stop} (hr : (p w).2 = .error e) : E e := by
  have hret := h.2
  rw [hr] at hret
  exact hret

/-- What a specification says about the cuts of a call, if the state before it satisfies `C`. -/
theorem Spec.cuts (h : Spec p C Q E w) (h0 : C w.nvm) {img : Nvm} (himg : img ∈ cuts p w) :
    C img := by
  rcases List.mem_cons.mp himg with rfl | himg
  · exact h0
  · obtain ⟨e, he, heq⟩ := List.mem_filterMap.mp himg
    exact h.1 e he img heq

/-- A program that cannot stop early returns. -/
theorem Spec.returns (h : Spec p C Q (fun _ => False) w) :
    ∃ a w', (p w).2 = .ok (a, w') ∧ Q a w' := by
  have hret := h.2
  rcases hr : (p w).2 with e | ⟨a, w'⟩
  · rw [hr] at hret
    exact absurd hret (by simp)
  · rw [hr] at hret
    exact ⟨a, w', rfl, hret⟩

/-- The invariant rule for a counted loop. -/
theorem spec_forRange {body : ℕ → Prog Unit} (I : ℕ → World → Prop) {i n : ℕ} (h0 : I i w)
    (hstep : ∀ k w', i ≤ k → k < i + n → I k w' → Spec (body k) C (fun _ w'' => I (k + 1) w'') E w') :
    Spec (forRange body i n) C (fun _ w' => I (i + n) w') E w :=
  wp_forRange I h0 hstep

end

/-! ## Sequences of stores

In a sequence of stores the world is `w.setMem m` with `w` fixed, and each rule names the new memory. -/

section

variable {α : Type} {C : Nvm → Prop} {U : Unit → World → Prop} {R : α → World → Prop}
  {E : Stop → Prop} {w : World} {m m₀ : Mem} {k : Unit → Prog α} {h v a n b l : ℕ} {f : NvmField}

/-- A store, then the rest. -/
theorem spec_storeAt_then (hrest : ∀ m', m' = store m a n v →
      C { w.nvm with mem := m' } ∧ Spec (k ()) C R E (w.setMem m')) :
    Spec (storeAt a n v >>= k) C R E (w.setMem m) := by
  rw [spec_bind, spec_storeAt]
  exact hrest _ rfl

/-- A field assignment, then the rest. -/
theorem spec_storeField_then (hrest : ∀ m', m' = store m (h + f.off) f.width v →
      C { w.nvm with mem := m' } ∧ Spec (k ()) C R E (w.setMem m')) :
    Spec (storeField h f v >>= k) C R E (w.setMem m) :=
  spec_storeAt_then hrest

/-- A field assignment inside a range in which every change is harmless. -/
theorem spec_storeField_within (hC : ∀ m', EqOff m₀ m' a n → C { w.nvm with mem := m' })
    (heq : EqOff m₀ m a n) (hlo : a ≤ h + f.off) (hhi : h + f.off + f.width ≤ a + n)
    (hrest : ∀ m', m' = store m (h + f.off) f.width v → EqOff m₀ m' a n →
      Spec (k ()) C R E (w.setMem m')) :
    Spec (storeField h f v >>= k) C R E (w.setMem m) := by
  refine spec_storeField_then fun m' hm' => ?_
  have heq' : EqOff m₀ m' a n := hm' ▸ heq.store v hlo hhi
  exact ⟨hC m' heq', hrest m' hm' heq'⟩

/-- A `memset` inside a range in which every change is harmless. -/
theorem spec_memset0_within (hC : ∀ m', EqOff m₀ m' a n → C { w.nvm with mem := m' })
    (heq : EqOff m₀ m a n) (hlo : a ≤ b) (hhi : b + l ≤ a + n)
    (hrest : ∀ m', m' = fill m b l → EqOff m₀ m' a n → Spec (k ()) C R E (w.setMem m')) :
    Spec (memset0 b l >>= k) C R E (w.setMem m) := by
  rw [spec_bind, spec_memset0]
  exact ⟨fun j hj => hC _ (heq.fill hlo (by omega)), hrest _ rfl (heq.fill hlo hhi)⟩

/-- A `memset`, then the rest. -/
theorem spec_memset0_then (hC : ∀ j < l, C { w.nvm with mem := fill m b (j + 1) })
    (hrest : ∀ m', m' = fill m b l → Spec (k ()) C R E (w.setMem m')) :
    Spec (memset0 b l >>= k) C R E (w.setMem m) := by
  rw [spec_bind, spec_memset0]
  exact ⟨hC, hrest _ rfl⟩

/-- A `memset` of zeros changes nothing. -/
theorem spec_memset0_noop (hz : ∀ x, b ≤ x → x < b + l → m x = 0) (hC : C { w.nvm with mem := m })
    (hrest : Spec (k ()) C R E (w.setMem m)) : Spec (memset0 b l >>= k) C R E (w.setMem m) := by
  rw [spec_bind, spec_memset0]
  refine ⟨fun j hj => ?_, ?_⟩
  · have hfill : fill m b (j + 1) = m := fill_eq_self fun x hx hx' => hz x hx (by omega)
    show C { w.nvm with mem := fill m b (j + 1) }
    rw [hfill]
    exact hC
  · show Spec (k ()) C R E (w.setMem (fill m b l))
    rw [fill_eq_self hz]
    exact hrest

/-- Storing zero over zeros changes nothing. -/
theorem spec_storeField_noop (hz : ∀ x, h + f.off ≤ x → x < h + f.off + f.width → m x = 0)
    (hC : C { w.nvm with mem := m }) (hrest : Spec (k ()) C R E (w.setMem m)) :
    Spec (storeField h f 0 >>= k) C R E (w.setMem m) := by
  refine spec_storeField_then fun m' hm' => ?_
  rw [hm', store_zero_eq_self hz]
  exact ⟨hC, hrest⟩

/-- A flush, then the rest. -/
theorem spec_persist_then (hrest : Spec (k ()) C R E w) : Spec (persist a >>= k) C R E w := by
  rw [spec_bind, spec_persist]
  exact hrest

theorem spec_persistRange_then (hrest : Spec (k ()) C R E w) :
    Spec (persistRange a n >>= k) C R E w := by
  rw [spec_bind, spec_persistRange]
  exact hrest

/-- A read, then the rest. -/
theorem spec_loadField_then {k : ℕ → Prog α} (hrest : Spec (k (field w.nvm.mem h f)) C R E w) :
    Spec (loadField h f >>= k) C R E w := by
  rw [spec_bind, spec_loadField]
  exact hrest

end

/-! ## Reading fields through stores -/

@[simp] theorem setMem_nvm (w : World) (m : Mem) : (w.setMem m).nvm = { w.nvm with mem := m } := rfl

@[simp] theorem setMem_nvmStart (w : World) (m : Mem) : (w.setMem m).nvmStart = w.nvmStart := rfl

@[simp] theorem setMem_setMem (w : World) (m m' : Mem) : (w.setMem m).setMem m' = w.setMem m' := rfl

theorem field_store_self {m : Mem} {h v : ℕ} {f : NvmField} :
    field (store m (h + f.off) f.width v) h f = v % 256 ^ f.width :=
  load_store_same ..

/-- A store to another field of the same header. -/
theorem field_store_of_ne {m : Mem} {h v : ℕ} {f g : NvmField}
    (hd : f.off + f.width ≤ g.off ∨ g.off + g.width ≤ f.off) :
    field (store m (h + g.off) g.width v) h f = field m h f :=
  load_store_of_disjoint (by omega)

/-- A store somewhere else. -/
theorem field_store_disjoint {m : Mem} {h v a n : ℕ} {f : NvmField}
    (hd : h + f.off + f.width ≤ a ∨ a + n ≤ h + f.off) : field (store m a n v) h f = field m h f :=
  load_store_of_disjoint hd

theorem field_eq_zero {m : Mem} {h : ℕ} {f : NvmField}
    (hz : ∀ x, h + f.off ≤ x → x < h + f.off + f.width → m x = 0) : field m h f = 0 :=
  load_eq_zero hz

/-- A field of a cleared range. -/
theorem field_fill {m : Mem} {h a n : ℕ} {f : NvmField} (hlo : a ≤ h + f.off)
    (hhi : h + f.off + f.width ≤ a + n) : field (fill m a n) h f = 0 :=
  load_fill_sub hlo hhi

/-- A field next to a cleared range. -/
theorem field_fill_of_ne {m : Mem} {h o n : ℕ} {f : NvmField}
    (hd : f.off + f.width ≤ o ∨ o + n ≤ f.off) : field (fill m (h + o) n) h f = field m h f :=
  load_fill_of_disjoint (by omega)

theorem field_congr {m m' : Mem} {h : ℕ} {f : NvmField}
    (heq : EqOn m m' (h + f.off) f.width) : field m' h f = field m h f :=
  load_congr heq

theorem field_lt (m : Mem) (h : ℕ) (f : NvmField) : field m h f < 256 ^ f.width := load_lt ..

end NvmMalloc
