import NvmMalloc.WriteAhead
import NvmMalloc.Classification

/-!
# Durability on return under cache-line persistency

Reference: `src/nvm_malloc.c` (`nvm_activate`, `nvm_free`), `src/arena.c` (`arena_free`), `src/util.h`
(`PERSIST`).

Each of the six protocols ends with a flush of its header line, so the header is durable when the call
returns.  A link word is not: `PERSIST (*link_ptr)` flushes the address that was stored in the word
and not the word.  The word is durable only if that address happens to lie in its line, or if a
crash could not have found another value there before.
-/

namespace NvmMalloc

open Memory CrashM Persistency

/-! ## What durability asks for -/

/-- The call returns, and every crash image then has the header line and the link words as the processor
sees them, the header in its final state. -/
def DurableOnReturn (k : LinkCall) (base : ℕ) (m₀ : Mem) (tr : List Moment) (s : Sys) (ptr : ℕ)
    (l1 l2 : Option Link) : Prop :=
  ∃ w', ((k.op ptr l1 l2).prog s.w).2 = .ok (none, w') ∧
    ∀ img, LineImage base m₀ (tr ++ moments ((k.op ptr l1 l2).prog s.w).1) img →
      k.Finished (sizeClass s.w.nvm.mem ptr) img ptr ∧
      EqOn w'.nvm.mem img (ptr / blockSize * blockSize) 64 ∧
      ∀ x ∈ linkWords s.w.nvmStart l1 l2, EqOn w'.nvm.mem img x.1 8

/-- `PERSIST` of the absolute address `v` flushes the line of the byte at offset `y`. -/
def Reaches (base v y : ℕ) : Prop := base + 64 * (y / 64) ≤ v ∧ v < base + 64 * (y / 64) + 64

/-- The values that a crash may find at `y` after the words were stored one by one, each followed by a
flush of the address equal to its value, when before it could find those in `V`. -/
def linkValues (base y : ℕ) (m : Mem) (V : UInt8 → Prop) : List (ℕ × ℕ) → UInt8 → Prop
  | [] => V
  | x :: ws => linkValues base y (store m x.1 8 x.2)
      (fun b => b = store m x.1 8 x.2 y ∨ (¬ Reaches base x.2 y ∧ V b)) ws

/-- Every byte of every link word is flushed by accident, or a crash before the call can only find the
value that the call leaves. -/
def LinksDurable (base : ℕ) (m₀ : Mem) (tr : List Moment) (s : Sys) (l1 l2 : Option Link) : Prop :=
  ∀ x ∈ linkWords s.w.nvmStart l1 l2, ∀ y, x.1 ≤ y → y < x.1 + 8 → ∀ b,
    linkValues base y s.w.nvm.mem (MayFind base m₀ tr y) (linkWords s.w.nvmStart l1 l2) b →
      b = Memory.storeWords s.w.nvm.mem (linkWords s.w.nvmStart l1 l2) y

/-! ## Traces of a header protocol -/

/-- The trace of a protocol on the header of page `p` that takes memory from `m` to `m'` and stores the
words in order.  The flags say whether the header line is flushed at the beginning and at the end. -/
inductive CallTrace (base p : ℕ) : Mem → Bool → List (ℕ × ℕ) → List Moment → Mem → Bool → Prop where
  | nil {m : Mem} {b : Bool} : CallTrace base p m b [] [] m b
  | header {m m₁ m' : Mem} {b b' : Bool} {ws : List (ℕ × ℕ)} {tr : List Moment}
      (heq : EqOff m m₁ (4096 * p) 64) (h : CallTrace base p m₁ false ws tr m' b') :
      CallTrace base p m b ws (.seen m₁ :: tr) m' b'
  | flush {m m' : Mem} {b b' : Bool} {ws : List (ℕ × ℕ)} {tr : List Moment}
      (h : CallTrace base p m true ws tr m' b') :
      CallTrace base p m b ws (.flush (base + 4096 * p) 1 :: tr) m' b'
  | link {m m' : Mem} {b b' : Bool} {ws : List (ℕ × ℕ)} {tr : List Moment} (x : ℕ × ℕ)
      (h : CallTrace base p (store m x.1 8 x.2) b ws tr m' b') :
      CallTrace base p m b (x :: ws) (.seen (store m x.1 8 x.2) :: .flush x.2 1 :: tr) m' b'

section

variable {base p y : ℕ} {m m₀ m₁ m₂ : Mem} {b b₁ b₂ : Bool} {ws ws' : List (ℕ × ℕ)}
  {tr tr₀ tr' : List Moment} {v : UInt8}

theorem flushes_iff_reaches {a : ℕ} : (Moment.flush a 1).Flushes base (y / 64) ↔ Reaches base a y := by
  constructor
  · rintro ⟨x, hx, hx', hlo, hhi⟩
    obtain rfl : x = a := by omega
    exact ⟨hlo, hhi⟩
  · rintro ⟨hlo, hhi⟩
    exact ⟨a, le_rfl, by omega, hlo, hhi⟩

theorem reaches_header : Reaches base (base + 4096 * p) y ↔ y / 64 = 64 * p := by
  unfold Reaches
  omega

/-- Of the memory only the byte matters. -/
theorem linkValues_congr {V : UInt8 → Prop} (h : m₁ y = m y) :
    linkValues base y m₁ V ws v ↔ linkValues base y m V ws v := by
  induction ws generalizing m m₁ V with
  | nil => rfl
  | cons x ws ih =>
    have hbyte : store m₁ x.1 8 x.2 y = store m x.1 8 x.2 y := by
      simp only [store]
      split
      · rfl
      · exact h
    unfold linkValues
    rw [hbyte]
    exact ih hbyte

namespace CallTrace

theorem append (h : CallTrace base p m b ws tr m₁ b₁) (h' : CallTrace base p m₁ b₁ ws' tr' m₂ b₂) :
    CallTrace base p m b (ws ++ ws') (tr ++ tr') m₂ b₂ := by
  induction h with
  | nil => exact h'
  | header heq _ ih => exact .header heq (ih h')
  | flush _ ih => exact .flush (ih h')
  | link x _ ih => exact .link x (ih h')

/-- The words are the only effect outside the header. -/
theorem eqOff (h : CallTrace base p m b ws tr m₁ b₁) :
    EqOff (Memory.storeWords m ws) m₁ (4096 * p) 64 := by
  induction h with
  | nil => exact EqOff.refl _ _ _
  | header heq _ ih => exact (heq.storeWords _).trans ih
  | flush _ ih => exact ih
  | link x _ ih => exact ih

/-- What a crash may find outside the header line. -/
theorem mayFind_body (h : CallTrace base p m b ws tr m₁ b₁) (hy : y / 64 ≠ 64 * p)
    (hcur : contents m₀ tr₀ = m) : MayFind base m₀ (tr₀ ++ tr) y v ↔
      linkValues base y m (MayFind base m₀ tr₀ y) ws v := by
  induction h generalizing tr₀ with
  | nil => rw [List.append_nil]; rfl
  | @header m m₁ m' b b' ws tr heq _ ih =>
    have hbyte : m₁ y = m y := heq y (by omega)
    have hvalues : MayFind base m₀ (tr₀ ++ [.seen m₁]) y = MayFind base m₀ tr₀ y := by
      funext v
      rw [mayFind_seen, hbyte, ← hcur]
      exact propext ⟨fun hv => hv.elim id fun hv => hv ▸ mayFind_contents, Or.inl⟩
    have hcur₁ : contents m₀ (tr₀ ++ [.seen m₁]) = m₁ := by
      rw [contents_append]
      rfl
    have hrest := ih hcur₁
    rw [List.append_assoc, hvalues] at hrest
    exact hrest.trans (linkValues_congr hbyte)
  | @flush m m' b b' ws tr _ ih =>
    have hmiss : ¬ (Moment.flush (base + 4096 * p) 1).Flushes base (y / 64) := by
      rw [flushes_iff_reaches, reaches_header]
      exact hy
    have hvalues : MayFind base m₀ (tr₀ ++ [.flush (base + 4096 * p) 1]) y = MayFind base m₀ tr₀ y := by
      funext v
      rw [mayFind_flush]
      exact propext ⟨fun hv => hv.elim (fun hv => hv ▸ mayFind_contents) And.right,
        fun hv => Or.inr ⟨hmiss, hv⟩⟩
    have hcur₁ : contents m₀ (tr₀ ++ [.flush (base + 4096 * p) 1]) = m := by
      rw [contents_append]
      exact hcur
    have hrest := ih hcur₁
    rwa [List.append_assoc, hvalues] at hrest
  | @link m m' b b' ws tr x _ ih =>
    have hcur' : contents m₀ (tr₀ ++ [.seen (store m x.1 8 x.2), .flush x.2 1]) = store m x.1 8 x.2 := by
      rw [contents_append]
      rfl
    have hrest := ih hcur'
    have hvalues : MayFind base m₀ (tr₀ ++ [.seen (store m x.1 8 x.2), .flush x.2 1]) y =
        fun b => b = store m x.1 8 x.2 y ∨ (¬ Reaches base x.2 y ∧ MayFind base m₀ tr₀ y b) := by
      funext v
      rw [show tr₀ ++ [.seen (store m x.1 8 x.2), .flush x.2 1] =
        (tr₀ ++ [.seen (store m x.1 8 x.2)]) ++ [.flush x.2 1] by simp, mayFind_flush, mayFind_seen,
        flushes_iff_reaches, contents_append]
      refine propext ⟨?_, ?_⟩
      · rintro (hv | ⟨hmiss, hv | hv⟩)
        · exact Or.inl hv
        · exact Or.inr ⟨hmiss, hv⟩
        · exact Or.inl hv
      · rintro (hv | ⟨hmiss, hv⟩)
        · exact Or.inl hv
        · exact Or.inr ⟨hmiss, Or.inl hv⟩
    rw [List.append_assoc, hvalues] at hrest
    exact hrest

/-- What a crash may find in the header line when it is flushed at the end. -/
theorem mayFind_header (h : CallTrace base p m b ws tr m₁ b₁) (hy : y / 64 = 64 * p)
    (hout : Outside ws (4096 * p) 64) (hcur : contents m₀ tr₀ = m)
    (hb : b = true → ∀ v, MayFind base m₀ tr₀ y v → v = m y) (hb₁ : b₁ = true)
    (hv : MayFind base m₀ (tr₀ ++ tr) y v) : v = m₁ y := by
  induction h generalizing tr₀ with
  | nil =>
    rw [List.append_nil] at hv
    exact hb hb₁ v hv
  | @header m m₁ m' b b' ws tr heq _ ih =>
    have hcur₁ : contents m₀ (tr₀ ++ [.seen m₁]) = m₁ := by
      rw [contents_append]
      rfl
    refine ih hout hcur₁
      (fun hf => absurd hf (by simp)) hb₁ ?_
    rwa [List.append_assoc]
  | @flush m m' b b' ws tr _ ih =>
    have hcur' : contents m₀ (tr₀ ++ [.flush (base + 4096 * p) 1]) = m := by
      rw [contents_append]
      exact hcur
    refine ih hout hcur' (fun _ v hv => ?_) hb₁ (by rwa [List.append_assoc])
    rw [mayFind_flush, flushes_iff_reaches, reaches_header, hcur] at hv
    exact hv.elim id fun hv => absurd hy hv.1
  | @link m m' b b' ws tr x _ ih =>
    have hcur' : contents m₀ (tr₀ ++ [.seen (store m x.1 8 x.2), .flush x.2 1]) = store m x.1 8 x.2 := by
      rw [contents_append]
      rfl
    have hx := hout x List.mem_cons_self
    have hbyte : store m x.1 8 x.2 y = m y := store_eqOff _ _ _ _ y (by omega)
    refine ih (fun z hz => hout z (List.mem_cons_of_mem _ hz)) hcur' (fun hbt v hv => ?_) hb₁
      (by rwa [List.append_assoc])
    rw [show tr₀ ++ [.seen (store m x.1 8 x.2), .flush x.2 1] =
      (tr₀ ++ [.seen (store m x.1 8 x.2)]) ++ [.flush x.2 1] by simp, mayFind_flush, mayFind_seen,
      contents_append] at hv
    rcases hv with hv | ⟨-, hv | hv⟩
    · exact hv
    · exact (hb hbt v hv).trans hbyte.symm
    · exact hv

end CallTrace

end

/-! ## The trace of a call -/

/-- `q` returns `a` in the state `w'`, and what it emits is the trace of a protocol on the header of page
`p`. -/
def Emits {α : Type} (base p : ℕ) (q : Prog α) (w : World) (b : Bool) (ws : List (ℕ × ℕ)) (a : α)
    (w' : World) (b' : Bool) : Prop :=
  (q w).2 = .ok (a, w') ∧ CallTrace base p w.nvm.mem b ws (moments (q w).1) w'.nvm.mem b'

section

variable {α β : Type} {base p on st : ℕ} {q : Prog α} {g : α → Prog β} {w w₁ w₂ : World}
  {b b₁ b₂ : Bool} {ws ws' : List (ℕ × ℕ)} {l1 l2 : Option Link}

theorem Emits.bind {a : α} {a' : β} (h : Emits base p q w b ws a w₁ b₁)
    (h' : Emits base p (g a) w₁ b₁ ws' a' w₂ b₂) : Emits base p (q >>= g) w b (ws ++ ws') a' w₂ b₂ := by
  obtain ⟨hret, htrace⟩ := h
  obtain ⟨hret', htrace'⟩ := h'
  constructor
  · show (CrashM.bind q g w).2 = _
    unfold CrashM.bind
    rw [hret]
    exact hret'
  · unfold moments
    rw [events_bind_ok hret, List.filterMap_append]
    exact htrace.append htrace'

theorem Emits.bind_exists {a : α} {a' : β} {Q : World → Prop} (h : Emits base p q w b ws a w₁ b₁)
    (h' : ∃ w₂, Emits base p (g a) w₁ b₁ ws' a' w₂ b₂ ∧ Q w₂) :
    ∃ w₂, Emits base p (q >>= g) w b (ws ++ ws') a' w₂ b₂ ∧ Q w₂ := by
  obtain ⟨w₂, hemits, hQ⟩ := h'
  exact ⟨w₂, h.bind hemits, hQ⟩

/-- A part that emits nothing. -/
theorem Emits.silent {a : α} (hret : q w = ([], .ok (a, w₁))) (hmem : w₁.nvm.mem = w.nvm.mem) :
    Emits base p q w b [] a w₁ b := by
  unfold Emits
  rw [hret, hmem]
  exact ⟨rfl, .nil⟩

theorem emits_storeField {f : NvmField} (v : ℕ) (hf : f.off + f.width ≤ 64) :
    Emits base p (storeField (4096 * p) f v) w b [] ()
      (w.setMem (store w.nvm.mem (4096 * p + f.off) f.width v)) false :=
  ⟨rfl, .header ((EqOff.refl _ _ _).store _ (by omega) (by omega)) .nil⟩

theorem emits_memset0 (hon : on + 32 ≤ 64) :
    Emits base p (memset0 (4096 * p + on) 32) w false [] ()
      (w.setMem (fill w.nvm.mem (4096 * p + on) 32)) false := by
  have hbytes : ∀ n ≤ 32, CallTrace base p w.nvm.mem false []
      (moments ((List.range n).map fun k => .store (4096 * p + on + k) 1
        (w.setMem (fill w.nvm.mem (4096 * p + on) (k + 1))).nvm))
      (fill w.nvm.mem (4096 * p + on) n) false := by
    intro n hn
    induction n with
    | zero =>
      rw [fill_zero]
      exact .nil
    | succ n ih =>
      unfold moments at ih ⊢
      rw [List.range_succ, List.map_append, List.filterMap_append]
      refine (ih (by omega)).append (.header (fun x hx => ?_) .nil)
      show fill w.nvm.mem _ (n + 1) x = _
      rw [fill_eqOff _ _ _ x (by omega), fill_eqOff _ _ _ x (by omega)]
  exact ⟨rfl, hbytes 32 le_rfl⟩

theorem emits_persist : Emits w.nvmStart p (persist (4096 * p)) w b [] () w true :=
  ⟨rfl, .flush .nil⟩

theorem emits_writeLink (l : Link) : Emits base p (writeLink l) w b [l.word w.nvmStart] ()
    (w.setMem (store w.nvm.mem l.ptr 8 (absToRelWithNull w.nvmStart l.target))) b :=
  ⟨rfl, .link (l.word w.nvmStart) .nil⟩

theorem emits_recordLink {k : ℕ} (l : Link) (hk : k < 2) (hon : on + 32 ≤ 64) :
    ∃ m, Emits base p (recordLink (4096 * p) on k l) w b [] () (w.setMem m) false := by
  refine ⟨_, rfl, .header ?_ (.header ?_ .nil)⟩
  · exact (EqOff.refl _ _ _).store _ (by simp only [onPtrF]; omega) (by simp only [onPtrF]; omega)
  · exact (EqOff.refl _ _ _).store _ (by simp only [onValueF]; omega) (by simp only [onValueF]; omega)

theorem emits_linkProtocol (w : World) (b : Bool) (base p st : ℕ) (l1 l2 : Option Link)
    (hon : on + 32 ≤ 64) :
    ∃ m b', Emits base p (linkProtocol (4096 * p) on st l1 l2) w b (linkWords w.nvmStart l1 l2) ()
      (w.setMem m) b' := by
  cases l1 with
  | none => exact ⟨w.nvm.mem, b, rfl, .nil⟩
  | some l1 =>
    obtain ⟨m₁, hrec₁⟩ : ∃ m, Emits base p (recordLink (4096 * p) on 0 l1) w b [] ()
      (w.setMem m) false :=
      emits_recordLink l1 (by omega) hon
    cases l2 with
    | none =>
      exact ⟨_, false, hrec₁.bind ((emits_storeField (f := stateF) st (by decide)).bind
        ((emits_writeLink l1).bind (Emits.silent rfl rfl)))⟩
    | some l2 =>
      obtain ⟨m₂, hrec₂⟩ : ∃ m, Emits base p (recordLink (4096 * p) on 1 l2) (w.setMem m₁) false [] ()
          (w.setMem m) false :=
        emits_recordLink l2 (by omega) hon
      exact ⟨_, false, hrec₁.bind (hrec₂.bind ((emits_storeField (f := stateF) st (by decide)).bind
        ((emits_writeLink l1).bind (emits_writeLink l2))))⟩

/-- **The protocol on a block or huge header** ends with a flush of the header in its final state. -/
theorem commitHeader_emits (committed final : ℕ) (h1 : ∀ x ∈ l1, x.InHeap) (h2 : ∀ x ∈ l2, x.InHeap)
    (hout : Outside (linkWords w.nvmStart l1 l2) (4096 * p) 64) (hcommitted : committed < 256)
    (hfinal : final < 256) :
    ∃ m, Emits w.nvmStart p (commitHeader (4096 * p) committed final l1 l2) w b
      (linkWords w.nvmStart l1 l2) () (w.setMem m) true ∧ field m (4096 * p) stateF = final := by
  obtain ⟨m₁, b₁, hlink⟩ := emits_linkProtocol w b w.nvmStart p committed l1 l2
    (show blockOn + 32 ≤ 64 by decide)
  have hemits : ∃ m, Emits w.nvmStart p (commitHeader (4096 * p) committed final l1 l2) w b
      (linkWords w.nvmStart l1 l2 ++ []) () (w.setMem m) true :=
    ⟨_, hlink.bind ((emits_storeField (f := stateF) final (by decide)).bind
      ((emits_memset0 (show blockOn + 32 ≤ 64 by decide)).bind emits_persist))⟩
  rw [List.append_nil] at hemits
  obtain ⟨m', hemits⟩ := hemits
  obtain ⟨m, hm, hstage, -⟩ := Spec.result (commitHeader_spec (C := fun _ => True)
    (E := fun _ => True) (w := w) h1 h2 hout hcommitted hfinal fun _ _ => trivial) hemits.1
  refine ⟨m', hemits, ?_⟩
  rw [show m' = m from congrArg (fun w : World => w.nvm.mem) hm]
  exact hstage.state

/-- A change of the bitmap is a store to the header. -/
theorem emits_setNvmBit {i : ℕ} (hi : i < 64) :
    ∃ m, Emits base p (setNvmBit (4096 * p) i) w b [] () (w.setMem m) false :=
  ⟨_, (Emits.silent rfl rfl).bind (emits_storeField _ (by simp only [bitmapF]; omega))⟩

theorem emits_clearNvmBit {i : ℕ} (hi : i < 64) :
    ∃ m, Emits base p (clearNvmBit (4096 * p) i) w b [] () (w.setMem m) false :=
  ⟨_, (Emits.silent rfl rfl).bind (emits_storeField _ (by simp only [bitmapF]; omega))⟩

/-- **The protocol on a run header** ends with a flush of the header, the run released and the bit of the
slot changed. -/
theorem commitRun_emits {committed i : ℕ} {v : Bool} {mark : Prog Unit}
    (hmark : Marks mark (4096 * p) i v)
    (hone : ∀ m b, ∃ m', Emits w.nvmStart p mark (w.setMem m) b [] () (w.setMem m') false) (hi : i < 64)
    (h1 : ∀ x ∈ l1, x.InHeap) (h2 : ∀ x ∈ l2, x.InHeap)
    (hout : Outside (linkWords w.nvmStart l1 l2) (4096 * p) 64) (hcommitted : committed < 256) :
    ∃ m, Emits w.nvmStart p (commitRun (4096 * p) committed i mark l1 l2) w b
      (linkWords w.nvmStart l1 l2) () (w.setMem m) true ∧
      RunStage w.nvm.mem (4096 * p) (linkWords w.nvmStart l1 l2) (usageRun + stateInitialized)
        (Function.update (bitmapBit w.nvm.mem (4096 * p)) i v) m := by
  obtain ⟨m₁, b₁, hlink⟩ := emits_linkProtocol
    (w.setMem (store w.nvm.mem (4096 * p + bitIdxF.off) bitIdxF.width i)) false w.nvmStart p committed
    l1 l2 (show runOn + 32 ≤ 64 by decide)
  obtain ⟨m₂, hbit⟩ := hone m₁ b₁
  have hemits : ∃ m, Emits w.nvmStart p (commitRun (4096 * p) committed i mark l1 l2) w b
      (linkWords w.nvmStart l1 l2 ++ []) () (w.setMem m) true :=
    ⟨_, (emits_storeField (f := bitIdxF) i (by decide)).bind (hlink.bind (hbit.bind
      ((emits_storeField (f := stateF) (usageRun + stateInitialized) (by decide)).bind
        ((emits_storeField (f := bitIdxF) bitIdxNone (by decide)).bind
          ((emits_memset0 (show runOn + 32 ≤ 64 by decide)).bind emits_persist)))))⟩
  rw [List.append_nil] at hemits
  obtain ⟨m', hemits⟩ := hemits
  obtain ⟨m, hm, hstage, -⟩ := Spec.result (commitRun_spec (C := fun _ => True)
    (E := fun _ => True) (w := w) hmark hi h1 h2 hout hcommitted fun _ _ => trivial) hemits.1
  refine ⟨m', hemits, ?_⟩
  rw [show m' = m from congrArg (fun w : World => w.nvm.mem) hm]
  exact hstage

theorem emits_acquireRun (hst : field w.nvm.mem (4096 * p) stateF = usageRun + stateInitialized) :
    Emits base p (acquireRun (4096 * p) st) w b [] ()
      (w.setMem (store w.nvm.mem (4096 * p + stateF.off) stateF.width st)) false := by
  refine (Emits.silent rfl rfl).bind ?_
  rw [if_pos hst]
  exact emits_storeField _ (by decide)

/-- The protocol on a run that was acquired in state `st₀`. -/
theorem acquired_emits (st₀ committed : ℕ) {i : ℕ} {v : Bool} {mark : Prog Unit}
    (hmark : Marks mark (4096 * p) i v)
    (hone : ∀ m b, ∃ m', Emits w.nvmStart p mark (w.setMem m) b [] () (w.setMem m') false) (hi : i < 64)
    (h1 : ∀ x ∈ l1, x.InHeap) (h2 : ∀ x ∈ l2, x.InHeap)
    (hout : Outside (linkWords w.nvmStart l1 l2) (4096 * p) 64) (hcommitted : committed < 256) :
    ∃ m, Emits w.nvmStart p (commitRun (4096 * p) committed i mark l1 l2)
      (w.setMem (store w.nvm.mem (4096 * p + stateF.off) stateF.width st₀)) false
      (linkWords w.nvmStart l1 l2) () (w.setMem m) true ∧
      field m (4096 * p) stateF = usageRun + stateInitialized ∧
      field m (4096 * p) nBytesF = field w.nvm.mem (4096 * p) nBytesF ∧
      bitmapBit m (4096 * p) i = v := by
  obtain ⟨m₀, hm₀⟩ : ∃ m₀, m₀ = store w.nvm.mem (4096 * p + stateF.off) stateF.width st₀ := ⟨_, rfl⟩
  obtain ⟨m, hemits, hstage⟩ := commitRun_emits (w := w.setMem m₀) (b := false) hmark
    (fun m b => hone m b) hi h1 h2 hout hcommitted
  rw [← hm₀]
  refine ⟨m, hemits, hstage.state, ?_, ?_⟩
  · calc field m (4096 * p) nBytesF
        = field m₀ (4096 * p) nBytesF := field_congr fun x hx hx' => hstage.keep x
          (by simp only [nBytesF] at hx; omega) (by simp only [nBytesF] at hx'; omega)
          (by simp only [nBytesF] at hx'; omega)
      _ = field w.nvm.mem (4096 * p) nBytesF := by rw [hm₀, field_store_of_ne (by decide)]
  · rw [hstage.bits i hi, Function.update_self]

end

/-! ## The calls -/

/-- The header line of page `p` is finished, in `m` and in every image that has this line. -/
def LinkCall.Leaves (k : LinkCall) (c : SizeClass) (m : Mem) (ptr p : ℕ) : Prop :=
  ∀ img, EqOn m img (4096 * p) 64 → k.Finished c img ptr

/-- The call returns in `w'`; it ran a protocol on the header of page `p` that flushed the header at the
end and left it finished. -/
structure Completes (k : LinkCall) (s : Sys) (ptr : ℕ) (l1 l2 : Option Link) (p : ℕ) (w' : World) :
    Prop where
  page : ptr / blockSize * blockSize = 4096 * p
  emits : Emits s.w.nvmStart p (k.op ptr l1 l2).prog s.w false (linkWords s.w.nvmStart l1 l2) none
    w' true
  finished : k.Leaves (sizeClass s.w.nvm.mem ptr) w'.nvm.mem ptr p

section

variable {α : Type} {L : Layout} {s : Sys} {r : Region} {l1 l2 : Option Link} {p : ℕ}

theorem Emits.congr {q q' : Prog α} {base p : ℕ} {w w' : World} {b b' : Bool} {ws : List (ℕ × ℕ)} {a : α}
    (h : Emits base p q' w b ws a w' b') (heq : q w = q' w) : Emits base p q w b ws a w' b' := by
  unfold Emits at h ⊢
  rw [heq]
  exact h

theorem emits_logActivate (base p ptr : ℕ) (w : World) (b : Bool) : ∃ w',
    Emits base p (logActivate ptr) w b [] () w' false ∧ w'.nvm.mem = w.nvm.mem ∧
      w'.nvmStart = w.nvmStart :=
  ⟨_, ⟨rfl, .header (EqOff.refl _ _ _) .nil⟩, rfl, rfl⟩

/-- What is left to show for an activation: its branch behind the log entry. -/
theorem completes_of_activateAs (h : HeapInv L s.w s.live) (hr : r ∈ s.live) (hactive : r.active = false)
    (hpage : r.ptr / blockSize * blockSize = 4096 * p)
    (hbranch : ∀ w, w.nvm.mem = s.w.nvm.mem → w.nvmStart = s.w.nvmStart →
      ∃ w', Emits w.nvmStart p (activateAs r.ptr l1 l2 (usageClass r.nBytes)) w false
        (linkWords w.nvmStart l1 l2) () w' true ∧
        LinkCall.activate.Leaves (sizeClass s.w.nvm.mem r.ptr) w'.nvm.mem r.ptr p) :
    ∃ w', Completes .activate s r.ptr l1 l2 p w' := by
  obtain ⟨w₁, hlog, hmem, hstart⟩ := emits_logActivate s.w.nvmStart p r.ptr s.w false
  obtain ⟨w', hemits, hfinished⟩ := hbranch w₁ hmem hstart
  rw [hstart] at hemits
  have hcall := (hlog.bind hemits).congr ((h.takesBranch hr).activate hactive l1 l2)
  have hprog := hcall.bind (g := fun _ => (pure none : Prog (Option ℕ))) (Emits.silent rfl rfl)
  rw [List.append_nil] at hprog
  exact ⟨w', hpage, hprog, hfinished⟩

/-- What is left to show for a deallocation: its branch. -/
theorem completes_of_freeAs (h : HeapInv L s.w s.live) (hr : r ∈ s.live) (hactive : r.active = true)
    (hpage : r.ptr / blockSize * blockSize = 4096 * p)
    {w' : World} (hemits : Emits s.w.nvmStart p (freeAs r.ptr l1 l2 (usageClass r.nBytes)) s.w false
      (linkWords s.w.nvmStart l1 l2 ++ []) () w' true)
    (hfinished : LinkCall.free.Leaves (sizeClass s.w.nvm.mem r.ptr) w'.nvm.mem r.ptr p) :
    Completes .free s r.ptr l1 l2 p w' := by
  have hcall := hemits.congr ((h.takesBranch hr).free hactive l1 l2)
  have hprog := hcall.bind (g := fun _ => (pure none : Prog (Option ℕ))) (Emits.silent rfl rfl)
  rw [List.append_nil, List.append_nil] at hprog
  exact ⟨hpage, hprog, hfinished⟩

/-- A block or huge header in its final state is finished. -/
theorem leaves_of_state {k : LinkCall} {c : SizeClass} {m : Mem} {ptr : ℕ} (hc : c ≠ .small)
    (hpage : ptr / blockSize * blockSize = 4096 * p) (hst : field m (4096 * p) stateF = k.final c) :
    k.Leaves c m ptr p := by
  intro img heq
  refine ⟨?_, fun hsmall => absurd hsmall hc⟩
  rw [hpage, field_eqOn heq (by decide)]
  exact hst

/-- A released run is finished if it has the bit of the slot as the call leaves it. -/
theorem leaves_of_bit {k : LinkCall} {m : Mem} {ptr e i : ℕ} {v : Bool} (hi : i < 64)
    (hpage : ptr / blockSize * blockSize = 4096 * p) (hptr : ptr = 4096 * p + 64 + e * i) (he : 0 < e)
    (hst : field m (4096 * p) stateF = usageRun + stateInitialized)
    (hbytes : field m (4096 * p) nBytesF = e) (hbit : bitmapBit m (4096 * p) i = v)
    (hv : v = true ↔ k = .activate) : k.Leaves .small m ptr p := by
  intro img heq
  unfold LinkCall.Finished
  simp only
  rw [hpage, field_eqOn heq (by decide), field_eqOn heq (by decide), hst, hbytes, hptr,
    show 4096 * p + headerSize = 4096 * p + 64 from rfl, slot_index he, bitmapBit_eqOn heq hi, hbit]
  refine ⟨?_, fun _ => hv⟩
  cases k <;> rfl

/-- The links of a call lie in NVM and apart from the headers. -/
structure LinksApart (L : Layout) (nvmStart : ℕ) (l1 l2 : Option Link) : Prop where
  first : ∀ x ∈ l1, x.InHeap
  second : ∀ x ∈ l2, x.InHeap
  outside : ∀ {p t}, L p = some t → Outside (linkWords nvmStart l1 l2) (4096 * p) 64

theorem HeapInv.linksApart (h : HeapInv L s.w s.live) (h1 : LinkOk s.live l1) (h2 : LinkOk s.live l2) :
    LinksApart L s.w.nvmStart l1 l2 where
  first := h.link_inHeap h1
  second := h.link_inHeap h2
  outside := (h.live.linkWords s.w.nvmStart h1 h2).outside h.nvm.ok

theorem activate_completes (h : ProcInv L s.w s.live) (hr : r ∈ s.live) (hactive : r.active = false)
    (hlinks : LinksApart L s.w.nvmStart l1 l2) :
    ∃ p t w', L p = some t ∧ Completes .activate s r.ptr l1 l2 p w' := by
  have hsizes : sclassSmallMax ≤ sclassLargeMax := by decide
  cases h.live.placed r hr with
  | @huge hlo p htile hptr =>
    obtain ⟨hmod, hh⟩ := h.huge_ptr htile hptr
    have hpage : r.ptr / blockSize * blockSize = 4096 * p := by
      simp only [hptr, blockSize]
      omega
    have hclass : usageClass r.nBytes = .huge := by
      unfold usageClass
      rw [if_neg (by omega), if_neg (by omega)]
    obtain ⟨w', hw'⟩ := completes_of_activateAs h.toHeapInv hr hactive hpage fun w hmem hstart => by
      obtain ⟨m, hemits, hst⟩ := commitHeader_emits (w := w) (b := false)
        (usageHuge + stateActivating) (usageHuge + stateInitialized)
        hlinks.first hlinks.second (hstart ▸ hlinks.outside htile) (by decide)
        (by decide)
      refine ⟨w.setMem m, ?_, ?_⟩
      · rw [hclass, activateAs, hh]
        exact hemits
      · rw [show sizeClass s.w.nvm.mem r.ptr = .huge from if_pos hmod]
        exact leaves_of_state (by simp) hpage hst
    exact ⟨p, _, w', htile, hw'⟩
  | @large hlo hhi p htile hptr =>
    obtain ⟨hmod, hpage⟩ := h.large_ptr htile hptr
    have hclass : usageClass r.nBytes = .block := by
      unfold usageClass
      rw [if_neg (by omega), if_pos hhi]
    obtain ⟨w', hw'⟩ := completes_of_activateAs h.toHeapInv hr hactive hpage fun w hmem hstart => by
      obtain ⟨m, hemits, hst⟩ := commitHeader_emits (w := w) (b := false)
        (usageBlock + stateActivating) (usageBlock + stateInitialized)
        hlinks.first hlinks.second (hstart ▸ hlinks.outside htile) (by decide)
        (by decide)
      refine ⟨w.setMem m, ?_, ?_⟩
      · rw [hclass, activateAs, hpage]
        exact hemits
      · rw [h.sizeClass_large htile hptr]
        exact leaves_of_state (by simp) hpage hst
    exact ⟨p, _, w', htile, hw'⟩
  | @small hsmall p k i htile helem hi hptr hbit hnvm =>
    have helem64 := le_elemSize (h.live.size r hr).1 helem
    have hslots := h.slots_le htile
    obtain ⟨-, hpage⟩ := h.small_ptr htile helem64 hi hptr
    obtain ⟨-, hst, -⟩ : Quiet s.w.nvm.mem p (.run k) := h.nvm.quiet htile
    have hbytes : field s.w.nvm.mem (4096 * p) nBytesF = (s.w.vheaders k).elemSize :=
      (h.runs.run htile).2.elemSize.symm
    have hidx : (r.ptr - (4096 * p + headerSize)) / (s.w.vheaders k).elemSize % 2 ^ 16 = i := by
      rw [hptr, show 4096 * p + headerSize = 4096 * p + 64 from rfl, slot_index (by omega)]
      omega
    have hclass : usageClass r.nBytes = .run := by
      unfold usageClass
      rw [if_pos hsmall]
    obtain ⟨w', hw'⟩ := completes_of_activateAs h.toHeapInv hr hactive hpage fun w hmem hstart => by
      obtain ⟨m, hemits, hst', hbytes', hbit'⟩ := acquired_emits (w := w) (p := p)
        (usageRun + statePreactivate) (usageRun + stateActivating)
        (setNvmBit_marks (show i < 64 by omega)) (fun _ _ => emits_setNvmBit (by omega)) (by omega)
        hlinks.first hlinks.second (hstart ▸ hlinks.outside htile) (by decide)
      refine ⟨w.setMem m, ?_, ?_⟩
      · rw [hclass, activateAs, hpage]
        refine (Emits.silent rfl rfl).bind ?_
        rw [hmem, hbytes, if_neg (by omega), hidx]
        exact (emits_acquireRun (hmem ▸ hst)).bind hemits
      · rw [h.sizeClass_small htile helem64 hi hptr]
        exact leaves_of_bit (by omega) hpage hptr (by omega) hst' (hbytes'.trans (hmem ▸ hbytes)) hbit'
          (by simp)
    exact ⟨p, _, w', htile, hw'⟩

theorem free_completes (h : ProcInv L s.w s.live) (hr : r ∈ s.live) (hactive : r.active = true)
    (hlinks : LinksApart L s.w.nvmStart l1 l2) :
    ∃ p t w', L p = some t ∧ Completes .free s r.ptr l1 l2 p w' := by
  have hsizes : sclassSmallMax ≤ sclassLargeMax := by decide
  cases h.live.placed r hr with
  | @huge hlo p htile hptr =>
    obtain ⟨hmod, hh⟩ := h.huge_ptr htile hptr
    have hpage : r.ptr / blockSize * blockSize = 4096 * p := by
      simp only [hptr, blockSize]
      omega
    have hclass : usageClass r.nBytes = .huge := by
      unfold usageClass
      rw [if_neg (by omega), if_neg (by omega)]
    obtain ⟨m, hemits, hst⟩ := commitHeader_emits (w := s.w) (b := false)
        (usageHuge + stateFreeing) (usageFree + stateInitialized)
      hlinks.first hlinks.second (hlinks.outside htile) (by decide) (by decide)
    have hcall : ∃ w', Emits s.w.nvmStart p (freeAs r.ptr l1 l2 .huge) s.w false
        (linkWords s.w.nvmStart l1 l2 ++ []) () w' true ∧ w'.nvm.mem = m := by
      rw [freeAs, hh]
      exact ⟨_, (Emits.silent rfl rfl).bind (hemits.bind (Emits.silent rfl rfl)), rfl⟩
    obtain ⟨w', hcall, hmem⟩ := hcall
    refine ⟨p, _, w', htile, completes_of_freeAs h.toHeapInv hr hactive hpage (hclass ▸ hcall) ?_⟩
    rw [show sizeClass s.w.nvm.mem r.ptr = .huge from if_pos hmod, hmem]
    exact leaves_of_state (by simp) hpage hst
  | @large hlo hhi p htile hptr =>
    obtain ⟨hmod, hpage⟩ := h.large_ptr htile hptr
    obtain ⟨-, harena, -, -⟩ := h.nvm.quiet htile
    have hclass : usageClass r.nBytes = .block := by
      unfold usageClass
      rw [if_neg (by omega), if_pos hhi]
    obtain ⟨m, hemits, hst⟩ := commitHeader_emits (w := s.w) (b := false)
        (usageBlock + stateFreeing) (usageFree + stateInitialized)
      hlinks.first hlinks.second (hlinks.outside htile) (by decide) (by decide)
    have hblock : arenaCreateBlockHeader (4096 * p) s.w = ([], .ok (⟨4096 * p,
        field s.w.nvm.mem (4096 * p) nPagesF % 2 ^ 16, field s.w.nvm.mem (4096 * p) blockArenaIdF⟩,
        s.w)) := by
      show (ite (field s.w.nvm.mem (4096 * p) blockArenaIdF < initialArenas) _ _ : Prog _) s.w = _
      rw [if_pos harena]
      rfl
    have hcall : ∃ w', Emits s.w.nvmStart p (freeAs r.ptr l1 l2 .block) s.w false
        (linkWords s.w.nvmStart l1 l2 ++ []) () w' true ∧ w'.nvm.mem = m := by
      rw [freeAs, hpage]
      exact ⟨_, (Emits.silent hblock rfl).bind (hemits.bind (Emits.silent rfl rfl)), rfl⟩
    obtain ⟨w', hcall, hmem⟩ := hcall
    refine ⟨p, _, w', htile, completes_of_freeAs h.toHeapInv hr hactive hpage (hclass ▸ hcall) ?_⟩
    rw [h.sizeClass_large htile hptr, hmem]
    exact leaves_of_state (by simp) hpage hst
  | @small hsmall p k i htile helem hi hptr hbit hnvm =>
    have helem64 := le_elemSize (h.live.size r hr).1 helem
    have hslots := h.slots_le htile
    obtain ⟨-, hpage⟩ := h.small_ptr htile helem64 hi hptr
    obtain ⟨-, hst, -⟩ : Quiet s.w.nvm.mem p (.run k) := h.nvm.quiet htile
    have hvdata : field s.w.nvm.mem (4096 * p) vdataF = k := (h.runs.run htile).2.vdata
    have hidx : (r.ptr - (4096 * p + headerSize)) / (s.w.vheaders k).elemSize = i := by
      rw [hptr, show 4096 * p + headerSize = 4096 * p + 64 from rfl, slot_index (by omega)]
    have hclass : usageClass r.nBytes = .run := by
      unfold usageClass
      rw [if_pos hsmall]
    obtain ⟨m, hemits, hst', hbytes', hbit'⟩ := acquired_emits (w := s.w) (p := p)
        (usageRun + statePrefree) (usageRun + stateFreeing)
      (clearNvmBit_marks (show i < 64 by omega)) (fun _ _ => emits_clearNvmBit (by omega)) (by omega)
      hlinks.first hlinks.second (hlinks.outside htile) (by decide)
    have hensure := ensureVheader_acquired (usageRun + statePrefree)
      (show ¬ field s.w.nvm.mem (4096 * p) versionF < s.w.currentVersion by rw [h.version]; omega)
    have hcall : ∃ w', Emits s.w.nvmStart p (freeAs r.ptr l1 l2 .run) s.w false
        (linkWords s.w.nvmStart l1 l2 ++ []) () w' true ∧ w'.nvm.mem = m := by
      rw [freeAs, hpage]
      refine (emits_acquireRun hst).bind_exists ((Emits.silent hensure rfl).bind_exists
        ((Emits.silent rfl rfl).bind_exists ?_))
      rw [setMem_vheaders, hvdata, if_neg (by omega), hidx]
      exact ⟨_, hemits.bind (Emits.silent rfl rfl), rfl⟩
    obtain ⟨w', hcall, hmem⟩ := hcall
    refine ⟨p, _, w', htile, completes_of_freeAs h.toHeapInv hr hactive hpage (hclass ▸ hcall) ?_⟩
    rw [h.sizeClass_small htile helem64 hi hptr]
    rw [hmem]
    exact leaves_of_bit (by omega) hpage hptr (by omega) hst'
      (hbytes'.trans (h.runs.run htile).2.elemSize.symm) hbit' (by simp)

end

/-! ## Durability on return -/

section

variable {P : Process} {m₀ : Mem} {tr : List Moment} {s : Sys} {k : LinkCall} {ptr : ℕ}
  {l1 l2 : Option Link}

theorem LinkCall.completes (k : LinkCall) {L : Layout} (h : ProcInv L s.w s.live)
    (hvalid : (k.op ptr l1 l2).Valid s) :
    ∃ p t w', L p = some t ∧ Completes k s ptr l1 l2 p w' := by
  cases k with
  | activate =>
    obtain ⟨⟨r, hr, rfl, hactive⟩, h1, h2⟩ := hvalid
    exact activate_completes h hr hactive (h.toHeapInv.linksApart h1 h2)
  | free =>
    obtain ⟨⟨r, hr, rfl, hactive⟩, h1, h2⟩ := hvalid
    exact free_completes h hr hactive (h.toHeapInv.linksApart h1 h2)

/-- What a crash may find when the call has returned: the header line as it left it, and in the link
words what the stray flushes leave. -/
theorem LinkCall.found_on_return (k : LinkCall) (htr : Traced P m₀ tr s)
    (hvalid : (k.op ptr l1 l2).Valid s) :
    ∃ p w', Completes k s ptr l1 l2 p w' ∧
      (∀ img, LineImage P.nvmStart m₀ (tr ++ moments ((k.op ptr l1 l2).prog s.w).1) img →
        EqOn w'.nvm.mem img (4096 * p) 64) ∧
      ∀ x ∈ linkWords s.w.nvmStart l1 l2, ∀ y, x.1 ≤ y → y < x.1 + 8 →
        w'.nvm.mem y = Memory.storeWords s.w.nvm.mem (linkWords s.w.nvmStart l1 l2) y ∧
        ∀ b, MayFind P.nvmStart m₀ (tr ++ moments ((k.op ptr l1 l2).prog s.w).1) y b ↔
          linkValues P.nvmStart y s.w.nvm.mem (MayFind P.nvmStart m₀ tr y)
            (linkWords s.w.nvmStart l1 l2) b := by
  obtain ⟨L, hinv, -, hstart⟩ := sysInv_of_reachable htr.reachable
  obtain ⟨p, t, w', hp, hcall⟩ := k.completes hinv hvalid
  have htrace := hcall.emits.2
  have hout : Outside (linkWords s.w.nvmStart l1 l2) (4096 * p) 64 := by
    have hlinks : LinkOk s.live l1 ∧ LinkOk s.live l2 := by cases k <;> exact hvalid.2
    exact (hinv.live.linkWords s.w.nvmStart hlinks.1 hlinks.2).outside hinv.nvm.ok hp
  rw [← hstart]
  refine ⟨p, w', hcall, fun img himg y hy hy' => ?_, fun x hx y hy hy' => ?_⟩
  · exact htrace.mayFind_header (by omega) hout htr.contents_eq (by simp) rfl ⟨img, himg, rfl⟩
  · -- a byte of a link word lies outside the header line
    have := hout x hx
    exact ⟨htrace.eqOff y (by omega), fun b => htrace.mayFind_body (by omega) htr.contents_eq⟩

/-- **A call is durable when it returns if and only if its link words are**: the header line is flushed,
the link words are not. -/
theorem durable_on_return_iff (htr : Traced P m₀ tr s) (hvalid : (k.op ptr l1 l2).Valid s) :
    DurableOnReturn k P.nvmStart m₀ tr s ptr l1 l2 ↔ LinksDurable P.nvmStart m₀ tr s l1 l2 := by
  obtain ⟨p, w', hcall, hheader, hwords⟩ := k.found_on_return htr hvalid
  have hret := hcall.emits.1
  constructor
  · rintro ⟨w'', hret'', himg⟩ x hx y hy hy' b hb
    obtain rfl : w' = w'' := by
      rw [hret] at hret''
      exact (Prod.mk.inj (Except.ok.inj hret'')).2
    obtain ⟨hmem, hfound⟩ := hwords x hx y hy hy'
    obtain ⟨img, hline, rfl⟩ := (hfound b).mpr hb
    rw [← hmem]
    exact (himg img hline).2.2 x hx y hy hy'
  · intro hlinks
    refine ⟨w', hret, fun img himg => ?_⟩
    refine ⟨hcall.finished img (hheader img himg), by rw [hcall.page]; exact hheader img himg,
      fun x hx y hy hy' => ?_⟩
    obtain ⟨hmem, hfound⟩ := hwords x hx y hy hy'
    rw [hmem]
    exact hlinks x hx y hy hy' _ ((hfound _).mp ⟨img, himg, rfl⟩)

end

/-- An activation without links in the first process. -/
theorem durable_without_links : ∃ m₀ tr s, Traced sampleProcess m₀ tr s ∧
    (LinkCall.activate.op 4190272 none none).Valid s ∧
    DurableOnReturn .activate sampleProcess.nvmStart m₀ tr s 4190272 none none := by
  have hany : ((sampleHistory [.reserve 0 100]).any fun s =>
      decide ((LinkCall.activate.op 4190272 none none).Valid s)) = true := by decide +kernel
  obtain ⟨s, hs, hvalid⟩ := Process.exists_reachable hany
  obtain ⟨m₀, tr, htr⟩ := hs.traced
  have hvalid := of_decide_eq_true hvalid
  exact ⟨m₀, tr, s, htr, hvalid, (durable_on_return_iff htr hvalid).mpr fun x hx =>
    absurd hx (by simp [linkWords])⟩

/-- The first object of a process, linked from itself: its activation returns before its link word is
durable. -/
theorem link_word_not_durable : ∃ m₀ tr s, Traced sampleProcess m₀ tr s ∧
    (LinkCall.activate.op 4190272 (some ⟨4190272, 4100190272⟩) none).Valid s ∧
    ¬ DurableOnReturn .activate sampleProcess.nvmStart m₀ tr s 4190272
      (some ⟨4190272, 4100190272⟩) none := by
  have hany : ((sampleHistory [.reserve 0 100]).any fun s =>
      decide ((LinkCall.activate.op 4190272 (some ⟨4190272, 4100190272⟩) none).Valid s ∧
        s.w.nvmStart = 4096000000 ∧ s.w.nvm.mem 4190272 = 0)) = true := by
    decide +kernel
  obtain ⟨s, hs, hfacts⟩ := Process.exists_reachable hany
  obtain ⟨hvalid, hstart, hzero⟩ := of_decide_eq_true hfacts
  obtain ⟨m₀, tr, htr⟩ := hs.traced
  refine ⟨m₀, tr, s, htr, hvalid, ?_⟩
  rintro ⟨w'', hret'', himg⟩
  obtain ⟨p, w', hcall, -, hwords⟩ := LinkCall.activate.found_on_return htr hvalid
  obtain rfl : w' = w'' := by
    rw [hcall.emits.1] at hret''
    exact (Prod.mk.inj (Except.ok.inj hret'')).2
  have hword : linkWords s.w.nvmStart (some ⟨4190272, 4100190272⟩) none = [(4190272, 4190272)] := by
    rw [hstart]
    rfl
  rw [hword] at hwords himg
  obtain ⟨hmem, hfound⟩ := hwords _ (List.mem_singleton_self _) 4190272 le_rfl (by simp)
  -- the address 4190272 lies below the mapping, so the old value is still possible
  obtain ⟨img, hline, hold⟩ := (hfound 0).mpr
    (Or.inr ⟨by simp [Reaches, sampleProcess], hzero ▸ htr.contents_eq ▸ mayFind_contents⟩)
  have hnew := (himg img hline).2.2 _ (List.mem_singleton_self _) 4190272 le_rfl (by simp)
  rw [hold, hmem] at hnew
  exact absurd hnew (by simp [Memory.storeWords, store])

end NvmMalloc
