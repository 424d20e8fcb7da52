import Mathlib.Data.Nat.Notation
import Mathlib.Tactic.Ring
import Mathlib.Data.Nat.Bitwise

/-!
# Byte-addressed memory

A memory is a total map from addresses to bytes.  `load` reads an unsigned little-endian integer of
`n` bytes, `store` writes one, and `fill` clears a range.  Everything a program proof needs is a
*frame* fact (an access outside the written range is unchanged) or a *hit* fact (the written range
reads back what was written).
-/

namespace Memory

/-- A byte-addressed memory. -/
abbrev Mem := ℕ → UInt8

/-- The unsigned little-endian integer held by the `n` bytes at `a`. -/
def load (m : Mem) (a : ℕ) : ℕ → ℕ
  | 0 => 0
  | n + 1 => (m a).toNat + 256 * load m (a + 1) n

/-- Write the low `n` bytes of `v`, little-endian, at `a`. -/
def store (m : Mem) (a n v : ℕ) : Mem :=
  fun x => if a ≤ x ∧ x < a + n then UInt8.ofNat (v / 256 ^ (x - a)) else m x

/-- Clear the `n` bytes at `a`. -/
def fill (m : Mem) (a n : ℕ) : Mem :=
  fun x => if a ≤ x ∧ x < a + n then 0 else m x

/-- `m'` agrees with `m` outside the `n` bytes at `a`. -/
def EqOff (m m' : Mem) (a n : ℕ) : Prop :=
  ∀ x, x < a ∨ a + n ≤ x → m' x = m x

/-- `m'` agrees with `m` on the `n` bytes at `a`. -/
def EqOn (m m' : Mem) (a n : ℕ) : Prop :=
  ∀ x, a ≤ x → x < a + n → m' x = m x

theorem EqOn.refl (m : Mem) (a n : ℕ) : EqOn m m a n := fun _ _ _ => rfl

theorem EqOn.trans {m m' m'' : Mem} {a n : ℕ} (h : EqOn m m' a n) (h' : EqOn m' m'' a n) :
    EqOn m m'' a n :=
  fun x hx hx' => (h' x hx hx').trans (h x hx hx')

theorem EqOn.symm {m m' : Mem} {a n : ℕ} (h : EqOn m m' a n) : EqOn m' m a n :=
  fun x hx hx' => (h x hx hx').symm

theorem EqOn.mono {m m' : Mem} {a n b k : ℕ} (h : EqOn m m' a n) (hab : a ≤ b)
    (hle : b + k ≤ a + n) : EqOn m m' b k :=
  fun x hx hx' => h x (by omega) (by omega)

/-- Outside the written range means on any disjoint range. -/
theorem EqOff.eqOn {m m' : Mem} {a n b k : ℕ} (h : EqOff m m' a n)
    (hd : b + k ≤ a ∨ a + n ≤ b) : EqOn m m' b k :=
  fun x hx hx' => h x (by omega)

theorem EqOff.trans {m m' m'' : Mem} {a n : ℕ} (h : EqOff m m' a n) (h' : EqOff m' m'' a n) :
    EqOff m m'' a n :=
  fun x hx => (h' x hx).trans (h x hx)

theorem EqOff.mono {m m' : Mem} {a n b k : ℕ} (h : EqOff m m' a n) (hba : b ≤ a)
    (hle : a + n ≤ b + k) : EqOff m m' b k :=
  fun x hx => h x (by omega)

theorem EqOff.refl (m : Mem) (a n : ℕ) : EqOff m m a n := fun _ _ => rfl

theorem store_eqOff (m : Mem) (a n v : ℕ) : EqOff m (store m a n v) a n := by
  intro x hx
  have h : ¬ (a ≤ x ∧ x < a + n) := by omega
  simp [store, h]

theorem fill_eqOff (m : Mem) (a n : ℕ) : EqOff m (fill m a n) a n := by
  intro x hx
  have h : ¬ (a ≤ x ∧ x < a + n) := by omega
  simp [fill, h]

/-- One more store inside the range. -/
theorem EqOff.store {m m' : Mem} {a n b k : ℕ} (h : EqOff m m' a n) (v : ℕ) (hab : a ≤ b)
    (hle : b + k ≤ a + n) : EqOff m (store m' b k v) a n :=
  h.trans ((store_eqOff m' b k v).mono hab hle)

/-- One more clearing inside the range. -/
theorem EqOff.fill {m m' : Mem} {a n b k : ℕ} (h : EqOff m m' a n) (hab : a ≤ b)
    (hle : b + k ≤ a + n) : EqOff m (fill m' b k) a n :=
  h.trans ((fill_eqOff m' b k).mono hab hle)

/-- Clearing what is clear. -/
theorem fill_eq_self {m : Mem} {a n : ℕ} (h : ∀ x, a ≤ x → x < a + n → m x = 0) :
    Memory.fill m a n = m := by
  funext x
  by_cases hx : a ≤ x ∧ x < a + n
  · simp [Memory.fill, hx, h x hx.1 hx.2]
  · simp [Memory.fill, hx]

/-- Storing zero over zeros. -/
theorem store_zero_eq_self {m : Mem} {a n : ℕ} (h : ∀ x, a ≤ x → x < a + n → m x = 0) :
    Memory.store m a n 0 = m := by
  funext x
  by_cases hx : a ≤ x ∧ x < a + n
  · simp [Memory.store, hx, h x hx.1 hx.2]
  · simp [Memory.store, hx]

/-! ## Loads -/

theorem load_congr {m m' : Mem} {a n : ℕ} (h : EqOn m m' a n) : load m' a n = load m a n := by
  induction n generalizing a with
  | zero => rfl
  | succ n ih =>
    have hhead : m' a = m a := h a le_rfl (by omega)
    have htail : load m' (a + 1) n = load m (a + 1) n := ih (h.mono (by omega) (by omega))
    rw [load, load, hhead, htail]

theorem load_lt (m : Mem) (a n : ℕ) : load m a n < 256 ^ n := by
  induction n generalizing a with
  | zero => simp [load]
  | succ n ih =>
    have hbyte : (m a).toNat < 256 := (m a).toNat_lt
    have htail := ih (a + 1)
    rw [load, pow_succ]
    omega

/-- Reading back a stored integer gives it modulo its width. -/
theorem load_store_same (m : Mem) (a n v : ℕ) : load (store m a n v) a n = v % 256 ^ n := by
  -- Generalise over the number `k` of bytes already read, so that the induction can move `a`.
  have key : ∀ (j k : ℕ), k + j = n →
      load (store m a n v) (a + k) j = v / 256 ^ k % 256 ^ j := by
    intro j
    induction j with
    | zero => intro k _; simp [load, Nat.mod_one]
    | succ j ih =>
      intro k hk
      have hin : a ≤ a + k ∧ a + k < a + n := by omega
      have hbyte : (store m a n v (a + k)).toNat = v / 256 ^ k % 256 := by
        simp [store, hin]
      have hnext := ih (k + 1) (by omega)
      rw [load, hbyte, Nat.add_assoc, hnext, pow_succ 256 j, Nat.mul_comm (256 ^ j) 256,
        Nat.mod_mul, pow_succ, ← Nat.div_div_eq_div_mul]
  simpa using key n 0 (by omega)

theorem load_store_of_disjoint {m : Mem} {a n v b k : ℕ} (h : b + k ≤ a ∨ a + n ≤ b) :
    load (store m a n v) b k = load m b k :=
  load_congr ((store_eqOff m a n v).eqOn h)

theorem load_fill_of_disjoint {m : Mem} {a n b k : ℕ} (h : b + k ≤ a ∨ a + n ≤ b) :
    load (fill m a n) b k = load m b k :=
  load_congr ((fill_eqOff m a n).eqOn h)

theorem load_eq_zero {m : Mem} {a n : ℕ} (h : ∀ x, a ≤ x → x < a + n → m x = 0) :
    load m a n = 0 := by
  induction n generalizing a with
  | zero => rfl
  | succ n ih =>
    have hhead : m a = 0 := h a le_rfl (by omega)
    have htail : load m (a + 1) n = 0 := ih fun x hx hx' => h x (by omega) (by omega)
    simp [load, hhead, htail]

/-- A word without bits has no set byte. -/
theorem eq_zero_of_load {m : Mem} {a n : ℕ} (h : load m a n = 0) :
    ∀ x, a ≤ x → x < a + n → m x = 0 := by
  induction n generalizing a with
  | zero => intro x hx hx'; omega
  | succ n ih =>
    rw [load] at h
    intro x hx hx'
    by_cases hxa : x = a
    · have hbyte : (m a).toNat = 0 := by omega
      rw [hxa]
      exact UInt8.toNat_inj.mp hbyte
    · exact ih (a := a + 1) (by omega) x (by omega) (by omega)

/-- An integer determines its bytes. -/
theorem eqOn_of_load {m m' : Mem} {a n : ℕ} (h : load m' a n = load m a n) : EqOn m m' a n := by
  induction n generalizing a with
  | zero => intro x hx hx'; omega
  | succ n ih =>
    rw [load, load] at h
    have hlt := (m a).toNat_lt
    have hlt' := (m' a).toNat_lt
    intro x hx hx'
    by_cases hxa : x = a
    · have hbyte : (m' a).toNat = (m a).toNat := by omega
      rw [hxa]
      exact UInt8.toNat_inj.mp hbyte
    · exact ih (a := a + 1) (by omega) x (by omega) (by omega)

/-- The upper bytes of a small word are zero. -/
theorem eq_zero_of_load_lt {m : Mem} {a n : ℕ} (h : load m a (n + 1) < 256) :
    ∀ x, a + 1 ≤ x → x < a + 1 + n → m x = 0 := by
  rw [load] at h
  exact eq_zero_of_load (by omega)

/-- A cleared range reads as zero. -/
theorem load_fill_sub {m : Mem} {a n b k : ℕ} (hab : a ≤ b) (hle : b + k ≤ a + n) :
    load (fill m a n) b k = 0 := by
  refine load_eq_zero fun x hx hx' => ?_
  have hin : a ≤ x ∧ x < a + n := by omega
  simp [fill, hin]

/-- A cleared byte. -/
theorem fill_apply {m : Mem} {a n x : ℕ} (hlo : a ≤ x) (hhi : x < a + n) : fill m a n x = 0 := by
  simp only [fill, if_pos (And.intro hlo hhi)]

theorem fill_zero (m : Mem) (a : ℕ) : fill m a 0 = m := by
  funext x
  have h : ¬ (a ≤ x ∧ x < a + 0) := by omega
  simp only [fill, if_neg h]

/-! ## Runs of word stores -/

/-- Store the 8-byte words `ws`, given as address and value, in order. -/
def storeWords (m : Mem) (ws : List (ℕ × ℕ)) : Mem := ws.foldl (fun m w => store m w.1 8 w.2) m

@[simp] theorem storeWords_nil (m : Mem) : storeWords m [] = m := rfl

@[simp] theorem storeWords_cons (m : Mem) (w : ℕ × ℕ) (ws : List (ℕ × ℕ)) :
    storeWords m (w :: ws) = storeWords (store m w.1 8 w.2) ws := rfl

/-- Word stores do not depend on the other bytes. -/
theorem storeWords_apply_congr {m m' : Mem} {ws : List (ℕ × ℕ)} {x : ℕ} (h : m' x = m x) :
    Memory.storeWords m' ws x = Memory.storeWords m ws x := by
  induction ws generalizing m m' with
  | nil => exact h
  | cons w ws ih =>
    refine ih ?_
    simp only [Memory.store]
    rw [h]

/-- A byte of a stored word does not depend on the memory before. -/
theorem storeWords_apply_of_mem {m m' : Mem} {ws : List (ℕ × ℕ)} {w : ℕ × ℕ} {x : ℕ} (hw : w ∈ ws)
    (hlo : w.1 ≤ x) (hhi : x < w.1 + 8) : storeWords m' ws x = storeWords m ws x := by
  induction ws generalizing m m' with
  | nil => exact absurd hw List.not_mem_nil
  | cons v ws ih =>
    rcases List.mem_cons.mp hw with rfl | hw
    · rw [storeWords_cons, storeWords_cons]
      refine storeWords_apply_congr ?_
      have hin : w.1 ≤ x ∧ x < w.1 + 8 := ⟨hlo, hhi⟩
      unfold Memory.store
      rw [if_pos hin, if_pos hin]
    · exact ih hw

/-- A byte outside all words keeps its value. -/
theorem storeWords_apply_of_not_mem {m : Mem} {ws : List (ℕ × ℕ)} {x : ℕ}
    (h : ∀ w ∈ ws, ¬ (w.1 ≤ x ∧ x < w.1 + 8)) : storeWords m ws x = m x := by
  induction ws generalizing m with
  | nil => rfl
  | cons w ws ih =>
    have hw := h w List.mem_cons_self
    rw [storeWords_cons, ih fun v hv => h v (List.mem_cons_of_mem w hv)]
    unfold Memory.store
    rw [if_neg hw]

/-- Words that are stored already, all or some of them, may be stored again. -/
theorem storeWords_apply_again {m m' : Mem} {ws ws' : List (ℕ × ℕ)} {x : ℕ} (hsub : ws' ⊆ ws)
    (h : m' x = storeWords m ws' x) : storeWords m' ws x = storeWords m ws x := by
  by_cases hcov : ∃ w ∈ ws, w.1 ≤ x ∧ x < w.1 + 8
  · obtain ⟨w, hw, hlo, hhi⟩ := hcov
    exact storeWords_apply_of_mem hw hlo hhi
  · have hout : ∀ w ∈ ws', ¬ (w.1 ≤ x ∧ x < w.1 + 8) :=
      fun w hw hx => hcov ⟨w, hsub hw, hx⟩
    rw [storeWords_apply_of_not_mem hout] at h
    exact storeWords_apply_congr h

/-- Word stores keep memories equal where they are equal. -/
theorem EqOff.storeWords {m m' : Mem} {a n : ℕ} (h : EqOff m m' a n) (ws : List (ℕ × ℕ)) :
    EqOff (Memory.storeWords m ws) (Memory.storeWords m' ws) a n := by
  intro x hx
  exact storeWords_apply_congr (h x hx)

/-- The words `ws` lie outside the range. -/
def Outside (ws : List (ℕ × ℕ)) (a n : ℕ) : Prop := ∀ w ∈ ws, w.1 + 8 ≤ a ∨ a + n ≤ w.1

instance (ws : List (ℕ × ℕ)) (a n : ℕ) : Decidable (Outside ws a n) :=
  inferInstanceAs (Decidable (∀ w ∈ ws, w.1 + 8 ≤ a ∨ a + n ≤ w.1))

theorem Outside.of_prefix {ws ws' : List (ℕ × ℕ)} {a n : ℕ} (hout : Outside ws a n)
    (hpre : ws' <+: ws) : Outside ws' a n :=
  fun x hx => hout x (hpre.subset hx)

theorem Outside.eqOn {ws : List (ℕ × ℕ)} {a n : ℕ} (h : Outside ws a n) (m : Mem) :
    EqOn m (storeWords m ws) a n := by
  induction ws generalizing m with
  | nil => exact EqOn.refl _ _ _
  | cons w ws ih =>
    have hw := h w List.mem_cons_self
    exact ((store_eqOff m w.1 8 w.2).eqOn (by omega)).trans
      (ih (fun v hv => h v (List.mem_cons_of_mem w hv)) _)

end Memory
