import Mathlib.Data.Nat.Notation
import Mathlib.Tactic.Common

/-!
# Programs that can be cut at every store

`CrashM σ ι ε α` is a program over a state `σ` that may stop with an `ε` and that records, at each of
its stores, an `ι`: typically the part of the state that survives if the machine stops there.  The
record is produced whether the program returns or not, so a cut inside a call that would later fail
is a cut like any other.

`wp p C Q E s` is the weakest precondition of `p` with a crash condition: every record satisfies `C`,
a normal return satisfies `Q` and an early stop satisfies `E`.  The rules `wp_pure`, `wp_bind`,
`wp_commit`, … are the only way the rest of the development takes a program apart.
-/

/-- A program over state `σ` that records what its stores leave behind. -/
def CrashM (σ ι ε α : Type) : Type := σ → List ι × Except ε (α × σ)

namespace CrashM

variable {σ ι ε α β : Type}

/-- Run `f` after `p`; an early stop of `p` skips `f` but keeps the records of `p`. -/
def bind (p : CrashM σ ι ε α) (f : α → CrashM σ ι ε β) : CrashM σ ι ε β := fun s =>
  match (p s).2 with
  | .ok (a, s') => ((p s).1 ++ (f a s').1, (f a s').2)
  | .error e => ((p s).1, .error e)

instance : Monad (CrashM σ ι ε) where
  pure a := fun s => ([], .ok (a, s))
  bind := bind

/-- Records of consecutive parts are joined in order, so how a sequence is bracketed does not matter. -/
instance : LawfulMonad (CrashM σ ι ε) :=
  LawfulMonad.mk' _
    (fun p => by
      funext s
      show bind p (fun a => pure (id a)) s = p s
      unfold bind
      rcases hr : p s with ⟨ev, e | ⟨a, s'⟩⟩ <;> simp [pure])
    (fun a f => by
      funext s
      show bind (pure a) f s = f a s
      simp [bind, pure])
    (fun p f g => by
      funext s
      show bind (bind p f) g s = bind p (fun a => bind (f a) g) s
      unfold bind
      rcases p s with ⟨ev, e | ⟨a, s'⟩⟩
      · rfl
      · rcases hf : f a s' with ⟨ev', e | ⟨b, s''⟩⟩ <;> simp [hf])

/-- Read the state. -/
def get : CrashM σ ι ε σ := fun s => ([], .ok (s, s))

/-- Change the state without leaving a record: nothing that survives a crash is touched. -/
def modify (f : σ → σ) : CrashM σ ι ε Unit := fun s => ([], .ok ((), f s))

/-- Stop early. -/
def throw (e : ε) : CrashM σ ι ε α := fun _ => ([], .error e)

/-- One store: change the state and record the new one. -/
def commit (view : σ → ι) (f : σ → σ) : CrashM σ ι ε Unit :=
  fun s => ([view (f s)], .ok ((), f s))

/-- Record something about the current state that is not a state change. -/
def emit (view : σ → ι) : CrashM σ ι ε Unit := fun s => ([view s], .ok ((), s))

/-- `n` stores in a row; `f k` is the state change of the first `k` of them together and `view k` the
record of the `k`-th. -/
def commits (view : ℕ → σ → ι) (f : ℕ → σ → σ) (n : ℕ) : CrashM σ ι ε Unit :=
  fun s => ((List.range n).map fun k => view k (f (k + 1) s), .ok ((), f n s))

/-- Run `body i`, `body (i + 1)`, …, `n` times. -/
def forRange (body : ℕ → CrashM σ ι ε Unit) : ℕ → ℕ → CrashM σ ι ε Unit
  | _, 0 => pure ()
  | i, n + 1 => do
    body i
    forRange body (i + 1) n

/-! ## Weakest preconditions -/

/-- Weakest precondition with crash condition `C`, postcondition `Q` and stop condition `E`. -/
def wp (p : CrashM σ ι ε α) (C : ι → Prop) (Q : α → σ → Prop) (E : ε → Prop) (s : σ) : Prop :=
  (∀ i ∈ (p s).1, C i) ∧
    match (p s).2 with
    | .ok (a, s') => Q a s'
    | .error e => E e

variable {p : CrashM σ ι ε α} {f : α → CrashM σ ι ε β} {C : ι → Prop} {Q : α → σ → Prop}
  {R : β → σ → Prop} {E : ε → Prop} {s : σ}

theorem wp_pure {a : α} : wp (pure a : CrashM σ ι ε α) C Q E s ↔ Q a s := by
  simp [wp, pure]

theorem wp_bind :
    wp (p >>= f) C R E s ↔ wp p C (fun a s' => wp (f a) C R E s') E s := by
  have hbind : (p >>= f) s = bind p f s := rfl
  unfold wp
  rw [hbind, bind]
  rcases (p s).2 with e | ⟨a, s'⟩
  · rfl
  · simp only [List.forall_mem_append, and_assoc]

theorem wp_get {Q : σ → σ → Prop} : wp (get : CrashM σ ι ε σ) C Q E s ↔ Q s s := by
  simp [wp, get]

theorem wp_modify {g : σ → σ} {Q : Unit → σ → Prop} :
    wp (modify g : CrashM σ ι ε Unit) C Q E s ↔ Q () (g s) := by
  simp [wp, modify]

theorem wp_throw {e : ε} : wp (throw e : CrashM σ ι ε α) C Q E s ↔ E e := by
  simp [wp, throw]

theorem wp_commit {view : σ → ι} {g : σ → σ} {Q : Unit → σ → Prop} :
    wp (commit view g : CrashM σ ι ε Unit) C Q E s ↔ C (view (g s)) ∧ Q () (g s) := by
  simp [wp, commit]

theorem wp_emit {view : σ → ι} {Q : Unit → σ → Prop} :
    wp (emit view : CrashM σ ι ε Unit) C Q E s ↔ C (view s) ∧ Q () s := by
  simp [wp, emit]

theorem wp_commits {view : ℕ → σ → ι} {g : ℕ → σ → σ} {n : ℕ} {Q : Unit → σ → Prop} :
    wp (commits view g n : CrashM σ ι ε Unit) C Q E s ↔
      (∀ k < n, C (view k (g (k + 1) s))) ∧ Q () (g n s) := by
  simp only [wp, commits, List.mem_map, List.mem_range, forall_exists_index, and_imp,
    forall_apply_eq_imp_iff₂]

theorem wp_ite {c : Prop} [Decidable c] {q : CrashM σ ι ε α} :
    wp (if c then p else q) C Q E s ↔ (c → wp p C Q E s) ∧ (¬ c → wp q C Q E s) := by
  by_cases hc : c <;> simp [hc]

/-- Weaken what is known about records, returns and stops. -/
theorem wp_mono {C' : ι → Prop} {Q' : α → σ → Prop} {E' : ε → Prop} (h : wp p C Q E s)
    (hC : ∀ i, C i → C' i) (hQ : ∀ a s', Q a s' → Q' a s') (hE : ∀ e, E e → E' e) :
    wp p C' Q' E' s := by
  obtain ⟨himg, hret⟩ := h
  refine ⟨fun i hi => hC i (himg i hi), ?_⟩
  revert hret
  rcases (p s).2 with e | ⟨a, s'⟩
  · exact hE e
  · exact hQ a s'

/-- Two facts about the same run combine. -/
theorem wp_and {C' : ι → Prop} {Q' : α → σ → Prop} {E' : ε → Prop} (h : wp p C Q E s)
    (h' : wp p C' Q' E' s) :
    wp p (fun i => C i ∧ C' i) (fun a s' => Q a s' ∧ Q' a s') (fun e => E e ∧ E' e) s := by
  obtain ⟨himg, hret⟩ := h
  obtain ⟨himg', hret'⟩ := h'
  refine ⟨fun i hi => ⟨himg i hi, himg' i hi⟩, ?_⟩
  revert hret hret'
  rcases (p s).2 with e | ⟨a, s'⟩ <;> exact fun h h' => ⟨h, h'⟩

/-- What `wp` says about one normal return. -/
theorem wp_result (h : wp p C Q E s) {a : α} {s' : σ} (hr : (p s).2 = .ok (a, s')) : Q a s' := by
  have hret := h.2
  rw [hr] at hret
  exact hret

/-- A test on what was returned; stopping fails it. -/
def returnsWith (test : α → σ → Bool) : Except ε (α × σ) → Bool
  | .ok (a, s) => test a s
  | .error _ => false

theorem of_returnsWith {test : α → σ → Bool} {r : Except ε (α × σ)} (h : returnsWith test r = true) :
    ∃ a s, r = .ok (a, s) ∧ test a s = true := by
  cases r with
  | error e => exact absurd h (by simp [returnsWith])
  | ok x => exact ⟨x.1, x.2, rfl, h⟩

/-- A test on how a run stopped; returning fails it. -/
def stopsWith (test : ε → Bool) : Except ε (α × σ) → Bool
  | .ok _ => false
  | .error e => test e

theorem of_stopsWith {test : ε → Bool} {r : Except ε (α × σ)} (h : stopsWith test r = true) :
    ∃ e, r = .error e ∧ test e = true := by
  cases r with
  | error e => exact ⟨e, rfl, h⟩
  | ok x => exact absurd h (by simp [stopsWith])

/-- A sequence returns if both of its parts do. -/
theorem bind_result {b : β} {s' : σ} :
    ((p >>= f) s).2 = .ok (b, s') ↔ ∃ a s₁, (p s).2 = .ok (a, s₁) ∧ (f a s₁).2 = .ok (b, s') := by
  show (CrashM.bind p f s).2 = _ ↔ _
  unfold CrashM.bind
  cases hr : (p s).2 with
  | error e => simp
  | ok x =>
    obtain ⟨a, s₁⟩ := x
    simp

/-- A sequence stops early if one of its parts does. -/
theorem bind_stop {e : ε} : ((p >>= f) s).2 = .error e ↔
    (p s).2 = .error e ∨ ∃ a s₁, (p s).2 = .ok (a, s₁) ∧ (f a s₁).2 = .error e := by
  show (CrashM.bind p f s).2 = _ ↔ _
  unfold CrashM.bind
  cases hr : (p s).2 with
  | error e' => simp
  | ok x =>
    obtain ⟨a, s₁⟩ := x
    simp

/-- A record of a sequence is one of its first part, or one of its second part after the first has
returned. -/
theorem mem_bind {i : ι} : i ∈ ((p >>= f) s).1 ↔
    i ∈ (p s).1 ∨ ∃ a s₁, (p s).2 = .ok (a, s₁) ∧ i ∈ (f a s₁).1 := by
  show i ∈ (CrashM.bind p f s).1 ↔ _
  unfold CrashM.bind
  cases hr : (p s).2 with
  | error e => simp
  | ok x =>
    obtain ⟨a, s₁⟩ := x
    simp

/-- The last iteration of a counted loop. -/
theorem forRange_succ (body : ℕ → CrashM σ ι ε Unit) (i n : ℕ) :
    forRange body i (n + 1) = forRange body i n >>= fun _ => body (i + n) := by
  induction n generalizing i with
  | zero => rw [forRange, forRange, forRange, pure_bind, Nat.add_zero, bind_pure_unit]
  | succ n ih => rw [forRange, ih (i + 1), forRange, bind_assoc, Nat.add_right_comm i 1 n, Nat.add_assoc]

/-- A record of a counted loop is one of some iteration. -/
theorem mem_forRange {body : ℕ → CrashM σ ι ε Unit} {i n : ℕ} {x : ι}
    (hx : x ∈ (forRange body i n s).1) :
    ∃ k s₁, k < n ∧ (forRange body i k s).2 = .ok ((), s₁) ∧ x ∈ (body (i + k) s₁).1 := by
  induction n with
  | zero => exact absurd hx List.not_mem_nil
  | succ n ih =>
    rw [forRange_succ, mem_bind] at hx
    rcases hx with hx | ⟨_, s₁, hr, hx⟩
    · obtain ⟨k, s₁, hk, h⟩ := ih hx
      exact ⟨k, s₁, by omega, h⟩
    · exact ⟨n, s₁, Nat.lt_succ_self n, hr, hx⟩

/-- The invariant rule for a counted loop. -/
theorem wp_forRange {body : ℕ → CrashM σ ι ε Unit} (I : ℕ → σ → Prop) {i n : ℕ} (h0 : I i s)
    (hstep : ∀ k s', i ≤ k → k < i + n → I k s' →
      wp (body k) C (fun _ s'' => I (k + 1) s'') E s') :
    wp (forRange body i n) C (fun _ s' => I (i + n) s') E s := by
  induction n generalizing i s with
  | zero =>
    rw [forRange, wp_pure]
    exact h0
  | succ n ih =>
    rw [forRange, wp_bind]
    refine wp_mono (hstep i s (Nat.le_refl i) (by omega) h0) (fun _ h => h) (fun _ s' hs' => ?_)
      (fun _ h => h)
    have hrest := ih hs' fun k s'' hk hkn => hstep k s'' (by omega) (by omega)
    rwa [Nat.add_right_comm i 1 n] at hrest

/-! ## Invariants -/

/-- Whenever `p` returns, it has kept the invariant `I`.  As a class: for a program put together from
parts that keep `I`, the instances below find the proof. -/
class Preserves (I : σ → Prop) (p : CrashM σ ι ε α) : Prop where
  out : ∀ {s s' : σ} {a : α}, I s → (p s).2 = .ok (a, s') → I s'

section Preserves

variable {I : σ → Prop}

theorem Preserves.of_wp (h : ∀ s, I s → wp p (fun _ => True) (fun _ s' => I s') (fun _ => True) s) :
    Preserves I p :=
  ⟨fun hs hr => wp_result (h _ hs) hr⟩

instance preserves_pure {a : α} : Preserves I (pure a : CrashM σ ι ε α) :=
  .of_wp fun _ hs => wp_pure.mpr hs

instance preserves_bind [hp : Preserves I p] [hf : ∀ a, Preserves I (f a)] : Preserves I (p >>= f) where
  out hs hr := by
    obtain ⟨a, s₁, hp₁, hf₁⟩ := bind_result.mp hr
    exact (hf a).out (hp.out hs hp₁) hf₁

-- `preserves_bind` would do, but the search counts the rest of a program twice when a result is dropped
instance preserves_seq {q : CrashM σ ι ε β} [Preserves I p] [Preserves I q] :
    Preserves I (p >>= fun _ => q) :=
  preserves_bind

instance preserves_get : Preserves I (get : CrashM σ ι ε σ) := .of_wp fun _ hs => wp_get.mpr hs

instance preserves_throw {e : ε} : Preserves I (throw e : CrashM σ ι ε α) :=
  .of_wp fun _ _ => wp_throw.mpr trivial

instance preserves_emit {view : σ → ι} : Preserves I (emit view : CrashM σ ι ε Unit) :=
  .of_wp fun _ hs => wp_emit.mpr ⟨trivial, hs⟩

theorem preserves_modify {g : σ → σ} (h : ∀ s, I s → I (g s)) :
    Preserves I (modify g : CrashM σ ι ε Unit) :=
  .of_wp fun s hs => wp_modify.mpr (h s hs)

theorem preserves_commit {view : σ → ι} {g : σ → σ} (h : ∀ s, I s → I (g s)) :
    Preserves I (commit view g : CrashM σ ι ε Unit) :=
  .of_wp fun s hs => wp_commit.mpr ⟨trivial, h s hs⟩

theorem preserves_commits {view : ℕ → σ → ι} {g : ℕ → σ → σ} {n : ℕ} (h : ∀ k s, I s → I (g k s)) :
    Preserves I (commits view g n : CrashM σ ι ε Unit) :=
  .of_wp fun s hs => wp_commits.mpr ⟨fun _ _ => trivial, h n s hs⟩

instance preserves_ite {c : Prop} [Decidable c] {q : CrashM σ ι ε α} [hp : Preserves I p]
    [hq : Preserves I q] : Preserves I (if c then p else q) := by
  split
  · exact hp
  · exact hq

instance preserves_forRange {body : ℕ → CrashM σ ι ε Unit} [hb : ∀ i, Preserves I (body i)] {i n : ℕ} :
    Preserves I (forRange body i n) := by
  induction n generalizing i with
  | zero => exact preserves_pure
  | succ n ih => exact preserves_bind

end Preserves

end CrashM
