import NvmMalloc.Lib.Memory

/-!
# Cache-line persistency

The processor sees its own stores at once, but a crash finds for each 64-byte line some earlier contents
of that line.  A trace lists what the processor saw and what it flushed; an image is possible if every
line is as it was at some moment after its last flush.
-/

namespace Persistency

open Memory

/-- One entry of a trace: the contents of memory after a store, or a completed flush of the bytes
`[addr, addr + len)`. -/
inductive Moment where
  | seen (m : Mem)
  | flush (addr len : ℕ)

/-- What the processor sees after a trace that started with the contents `m₀`. -/
def contents (m₀ : Mem) : List Moment → Mem
  | [] => m₀
  | .seen m :: tr => contents m tr
  | .flush _ _ :: tr => contents m₀ tr

/-- A flush of an address in line `l` of the mapping that starts at `base`.  A mapping starts at a page
boundary, so its lines are lines of the hardware. -/
def Moment.Flushes (base l : ℕ) : Moment → Prop
  | .seen _ => False
  | .flush addr len => ∃ x, addr ≤ x ∧ x < addr + len ∧ base + 64 * l ≤ x ∧ x < base + 64 * l + 64

/-- **The images a crash after a trace can leave**: independently for each line, its contents after a
prefix of the trace that includes every flush of the line. -/
def LineImage (base : ℕ) (m₀ : Mem) (tr : List Moment) (img : Mem) : Prop :=
  ∀ l, ∃ pre post, tr = pre ++ post ∧ (∀ x ∈ post, ¬ x.Flushes base l) ∧
    EqOn (contents m₀ pre) img (64 * l) 64

variable {base l : ℕ} {m₀ m img : Mem} {tr pre post : List Moment}

theorem contents_append : contents m₀ (pre ++ post) = contents (contents m₀ pre) post := by
  induction pre generalizing m₀ with
  | nil => rfl
  | cons x pre ih => cases x <;> exact ih

/-- Everything reaches memory except the stores on one line since a moment after its last flush. -/
theorem LineImage.hold_back (hpost : ∀ x ∈ post, ¬ x.Flushes base l)
    (hline : EqOn (contents m₀ pre) img (64 * l) 64)
    (hoff : EqOff (contents m₀ (pre ++ post)) img (64 * l) 64) :
    LineImage base m₀ (pre ++ post) img := by
  intro k
  by_cases hk : k = l
  · rw [hk]
    exact ⟨pre, post, rfl, hpost, hline⟩
  · refine ⟨pre ++ post, [], (List.append_nil _).symm, by simp, ?_⟩
    exact hoff.eqOn (by omega)

/-! ## The values a crash may find -/

/-- A crash after the trace may find the value `b` at the address `y`. -/
def MayFind (base : ℕ) (m₀ : Mem) (tr : List Moment) (y : ℕ) (b : UInt8) : Prop :=
  ∃ img, LineImage base m₀ tr img ∧ img y = b

variable {y : ℕ} {b : UInt8}

/-- Only the line of the address matters. -/
theorem mayFind_iff : MayFind base m₀ tr y b ↔ ∃ pre post, tr = pre ++ post ∧
    (∀ x ∈ post, ¬ x.Flushes base (y / 64)) ∧ contents m₀ pre y = b := by
  constructor
  · rintro ⟨img, himg, rfl⟩
    obtain ⟨pre, post, htr, hpost, heq⟩ := himg (y / 64)
    exact ⟨pre, post, htr, hpost, (heq y (by omega) (by omega)).symm⟩
  · rintro ⟨pre, post, rfl, hpost, rfl⟩
    refine ⟨fun x => if x / 64 = y / 64 then contents m₀ pre x else contents m₀ (pre ++ post) x,
      LineImage.hold_back (l := y / 64) hpost (fun x hx hx' => ?_) fun x hx => ?_, if_pos rfl⟩
    · exact if_pos (by omega)
    · exact if_neg (by omega)

theorem mayFind_contents : MayFind base m₀ tr y (contents m₀ tr y) :=
  mayFind_iff.mpr ⟨tr, [], (List.append_nil _).symm, by simp, rfl⟩

/-- One more moment: the values from before it, unless it flushes the line, and what the processor sees
after it. -/
theorem mayFind_snoc {x : Moment} : MayFind base m₀ (tr ++ [x]) y b ↔
    (MayFind base m₀ tr y b ∧ ¬ x.Flushes base (y / 64)) ∨ b = contents m₀ (tr ++ [x]) y := by
  constructor
  · intro h
    obtain ⟨pre, post, htr, hpost, rfl⟩ := mayFind_iff.mp h
    rcases List.eq_nil_or_concat post with rfl | ⟨post, z, rfl⟩
    · rw [List.append_nil] at htr
      rw [htr]
      exact Or.inr rfl
    · rw [List.concat_eq_append] at htr hpost
      rw [← List.append_assoc] at htr
      obtain ⟨rfl, hz⟩ := List.append_inj' htr rfl
      obtain rfl : x = z := List.singleton_inj.mp hz
      refine Or.inl ⟨mayFind_iff.mpr ⟨pre, post, rfl, fun z hz => ?_, rfl⟩, ?_⟩
      · exact hpost z (List.mem_append_left _ hz)
      · exact hpost x (List.mem_append_right _ List.mem_cons_self)
  · rintro (⟨h, hx⟩ | rfl)
    · obtain ⟨pre, post, rfl, hpost, rfl⟩ := mayFind_iff.mp h
      refine mayFind_iff.mpr ⟨pre, post ++ [x], List.append_assoc .., fun z hz => ?_, rfl⟩
      rcases List.mem_append.mp hz with hz | hz
      · exact hpost z hz
      · rw [List.mem_singleton.mp hz]
        exact hx
    · exact mayFind_contents

/-- A store adds what it leaves. -/
theorem mayFind_seen : MayFind base m₀ (tr ++ [.seen m]) y b ↔ MayFind base m₀ tr y b ∨ b = m y := by
  rw [mayFind_snoc, and_iff_left (show ¬ (Moment.seen m).Flushes base (y / 64) from id),
    contents_append]
  rfl

/-- A flush of the line leaves what the processor sees, and a flush of another line changes nothing. -/
theorem mayFind_flush {a n : ℕ} : MayFind base m₀ (tr ++ [.flush a n]) y b ↔
    b = contents m₀ tr y ∨ (¬ (Moment.flush a n).Flushes base (y / 64) ∧ MayFind base m₀ tr y b) := by
  rw [mayFind_snoc, contents_append, or_comm, and_comm]
  rfl

end Persistency
