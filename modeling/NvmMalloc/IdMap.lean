import NvmMalloc.Reachability

/-!
# The object table as a finite map

Reference: `src/object_table.c` (`hash_fn`, `equal_fn`, `ot_insert`, `ot_get`, `ot_remove`).

`mapAfter` is what a finite map from identifiers to pointers holds after a sequence of calls:
identifiers that `equal_fn` does not tell apart are one key.  The hash map agrees with it as long as the
bucket of an identifier is the bucket of the 54 characters that `ot_insert` keeps of it, and as long as
the queue of freed slots has room: `ot_remove` spins when the queue is full.
-/

namespace NvmMalloc

open Memory CrashM

/-! ## Calls and histories -/

/-- A call of the object table. -/
inductive OtCall where
  | insert (id : List UInt8) (dataPtr : ℕ)
  | remove (id : List UInt8)
deriving DecidableEq

/-- The identifier of a call. -/
def OtCall.id : OtCall → List UInt8
  | .insert id _ | .remove id => id

/-- The function that a call runs. -/
def OtCall.prog : OtCall → Prog OtResult
  | .insert id dataPtr => otInsert id dataPtr
  | .remove id => otRemove id

/-- A pointer has 64 bits. -/
def OtCall.Typed : OtCall → Prop
  | .insert _ dataPtr => dataPtr < 2 ^ 64
  | .remove _ => True

/-- The calls made from `w₀` on, with their results, and the state they lead to. -/
inductive OtRun (w₀ : World) : List (OtCall × OtResult) → World → Prop where
  | nil : OtRun w₀ [] w₀
  | snoc {h : List (OtCall × OtResult)} {w w' : World} {c : OtCall} {r : OtResult}
      (hrun : OtRun w₀ h w) (htyped : c.Typed) (hcall : (c.prog w).2 = .ok (r, w')) :
      OtRun w₀ (h ++ [(c, r)]) w'

/-- One call of a finite map: only `OT_OK` changes it. -/
def mapStep (m : List UInt8 → Option ℕ) : OtCall × OtResult → List UInt8 → Option ℕ
  | (.insert id dataPtr, .ok) => fun id' => if equalFn id' id then some dataPtr else m id'
  | (.remove id, .ok) => fun id' => if equalFn id' id then none else m id'
  | _ => m

/-- The finite map after a history. -/
def mapAfter (h : List (OtCall × OtResult)) : List UInt8 → Option ℕ := h.foldl mapStep fun _ => none

/-- The removals of a history. -/
def removals (h : List (OtCall × OtResult)) : ℕ :=
  h.countP fun x => match x with
    | (.remove _, .ok) => true
    | _ => false

/-- In state `w`, reached by the history `h`, the table is a finite map on the identifiers in `ids`:
`ot_get` returns what the map holds, and the next call returns what the map tells. -/
structure FiniteMap (ids : List UInt8 → Prop) (h : List (OtCall × OtResult)) (w : World) : Prop where
  get : ∀ id, ids id → (otGet w.ot id).map OtEntry.dataPtr = mapAfter h id
  insert : ∀ id dataPtr, ids id → dataPtr < 2 ^ 64 → ∃ r w', (otInsert id dataPtr w).2 = .ok (r, w') ∧
    (r = .duplicate ↔ (mapAfter h id).isSome)
  remove : ∀ id, ids id → ∃ r w', (otRemove id w).2 = .ok (r, w') ∧
    (r = .ok ↔ (mapAfter h id).isSome)

/-- The bucket of `id` is that of the key which `ot_insert` stores for it. -/
def KeyFits (id : List UInt8) : Prop := bucketOf (id.take maxIdLength) = bucketOf id

instance (id : List UInt8) : Decidable (KeyFits id) := inferInstanceAs (Decidable (_ = _))

/-! ## Buckets -/

section

variable {ot : ObjectTable} {id id' : List UInt8} {e : OtEntry}

/-- Equal identifiers that fit are in one bucket. -/
theorem KeyFits.bucket_eq (h : KeyFits id) (h' : KeyFits id') (heq : equalFn id id' = true) :
    bucketOf id = bucketOf id' := by
  rw [equalFn_iff] at heq
  rw [← h, ← h', heq]

/-- A stored key fits. -/
theorem keyFits_of_length_le (hlen : id.length ≤ maxIdLength) : KeyFits id := by
  unfold KeyFits
  rw [List.take_of_length_le hlen]

/-- `ot_get` after an entry was put in front of its bucket. -/
theorem otGet_hashmapInsert (hid : KeyFits id) (hlen : e.id.length ≤ maxIdLength) :
    otGet (hashmapInsert ot e) id = if equalFn id e.id then some e else otGet ot id := by
  unfold otGet hashmapInsert
  dsimp only
  by_cases hb : bucketOf id = bucketOf e.id
  · rw [hb, Function.update_self, List.find?_cons]
    cases equalFn id e.id <;> rfl
  · rw [Function.update_of_ne hb, if_neg]
    exact fun heq => hb (hid.bucket_eq (keyFits_of_length_le hlen) heq)

/-- Taking the first match out of a bucket that has no other leaves none. -/
theorem find?_eraseP_self {α : Type} {p : α → Bool} {l : List α}
    (h : l.Pairwise fun x y => p x = true → p y = false) : (l.eraseP p).find? p = none := by
  induction l with
  | nil => rfl
  | cons x l ih =>
    obtain ⟨hx, hl⟩ := List.pairwise_cons.mp h
    by_cases hpx : p x = true
    · rw [List.eraseP_cons_of_pos hpx, List.find?_eq_none]
      intro y hy
      rw [hx y hy hpx]
      exact Bool.false_ne_true
    · rw [List.eraseP_cons_of_neg hpx, List.find?_cons_of_neg hpx]
      exact ih hl

/-- Taking a match out does not change what another search finds. -/
theorem find?_eraseP_of_disjoint {α : Type} {p q : α → Bool} {l : List α}
    (h : ∀ x, p x = true → q x = false) : (l.eraseP p).find? q = l.find? q := by
  induction l with
  | nil => rfl
  | cons x l ih =>
    by_cases hpx : p x = true
    · rw [List.eraseP_cons_of_pos hpx, List.find?_cons, h x hpx]
    · rw [List.eraseP_cons_of_neg hpx, List.find?_cons, List.find?_cons, ih]

/-- `ot_get` after the first match of `id` was taken out of its bucket. -/
theorem otGet_erase {hashmap' : ℕ → List OtEntry} (hid : KeyFits id) (hid' : KeyFits id')
    (hmap : hashmap' = Function.update ot.hashmap (bucketOf id)
      ((ot.hashmap (bucketOf id)).eraseP fun e => equalFn id e.id))
    (hkeys : ∀ b, (ot.hashmap b).Pairwise fun x y => equalFn x.id y.id = false) :
    (hashmap' (bucketOf id')).find? (fun e => equalFn id' e.id) =
      if equalFn id' id then none else otGet ot id' := by
  subst hmap
  by_cases heq : equalFn id' id = true
  · have htake := equalFn_iff.mp heq
    have hsame : (fun e : OtEntry => equalFn id' e.id) = fun e => equalFn id e.id := by
      funext e
      unfold equalFn
      rw [htake]
    rw [if_pos heq, hid'.bucket_eq hid heq, Function.update_self, hsame]
    refine find?_eraseP_self ((hkeys _).imp fun {x y} hxy hx => ?_)
    by_contra hy
    rw [Bool.not_eq_false, equalFn_iff] at hy
    rw [equalFn_iff] at hx
    rw [← Bool.not_eq_true, equalFn_iff] at hxy
    exact hxy (hx.symm.trans hy)
  · rw [if_neg heq]
    by_cases hb : bucketOf id' = bucketOf id
    · rw [hb, Function.update_self]
      unfold otGet
      rw [hb]
      refine find?_eraseP_of_disjoint fun e he => ?_
      by_contra he'
      rw [Bool.not_eq_false, equalFn_iff] at he'
      rw [equalFn_iff] at he heq
      exact heq (he'.trans he.symm)
    · rw [Function.update_of_ne hb]
      rfl

end

/-! ## One call -/

/-- The hash map holds what the finite map of the history holds, one entry a key, and the queue of freed
slots was used once by every removal. -/
structure MapInv (h : List (OtCall × OtResult)) (w : World) : Prop where
  inv : OtInv w.ot
  keys : ∀ b, (w.ot.hashmap b).Pairwise fun x y => equalFn x.id y.id = false
  next : w.ot.slotBufferNextIdx = removals h
  get : ∀ id, KeyFits id → (otGet w.ot id).map OtEntry.dataPtr = mapAfter h id

theorem mapAfter_snoc (h : List (OtCall × OtResult)) (x : OtCall × OtResult) :
    mapAfter (h ++ [x]) = mapStep (mapAfter h) x := by
  unfold mapAfter
  rw [List.foldl_append, List.foldl_cons, List.foldl_nil]

section

variable {h : List (OtCall × OtResult)} {w : World} {C : Nvm → Prop} {id : List UInt8} {dataPtr : ℕ}

theorem MapInv.isSome (hm : MapInv h w) (hid : KeyFits id) :
    (mapAfter h id).isSome = (otGet w.ot id).isSome := by
  rw [← hm.get id hid, Option.isSome_map]

/-- A call that does not return `OT_OK` changes nothing. -/
theorem MapInv.unchanged (hm : MapInv h w) {c : OtCall} {r : OtResult} (hr : r ≠ .ok) :
    MapInv (h ++ [(c, r)]) w := by
  refine ⟨hm.inv, hm.keys, ?_, fun id hid => ?_⟩
  · rw [hm.next]
    unfold removals
    rw [List.countP_append]
    cases c <;> cases r <;> first | rfl | exact absurd rfl hr
  · rw [mapAfter_snoc, hm.get id hid]
    cases c <;> cases r <;> first | rfl | exact absurd rfl hr

/-- What `ot_insert` answers and does to the hash map. -/
theorem otInsert_effect (hinv : OtInv w.ot) :
    Spec (otInsert id dataPtr) C
      (fun r w' => (r = .duplicate ∧ (otGet w.ot id).isSome ∧ w' = w) ∨
        (otGet w.ot id = none ∧ (r = .fail ∧ w' = w ∨ r = .ok ∧ ∃ ot s, ot.hashmap = w.ot.hashmap ∧
          ot.slotBufferNextIdx = w.ot.slotBufferNextIdx ∧
          w' = w.setOt (hashmapInsert ot ⟨id.take maxIdLength, s, dataPtr, otSlotAddr s⟩))))
      (fun _ => False) w := by
  unfold otInsert
  rw [spec_bind, spec_get, spec_ite]
  refine ⟨fun hsome => spec_pure.mpr (Or.inl ⟨rfl, hsome, rfl⟩), fun hnone => ?_⟩
  have hnone' : otGet w.ot id = none := by simpa using hnone
  refine (otTakeSlot_spec hinv).bind ?_
  rintro res w' (⟨rfl, rfl⟩ | ⟨s, ot, rfl, rfl, -, hmap, hnext, -⟩)
  · exact spec_pure.mpr (Or.inr ⟨hnone', Or.inl ⟨rfl, rfl⟩⟩)
  · show Spec (modify _ >>= _) _ _ _ _
    rw [spec_bind, spec_modify, spec_pure]
    exact Or.inr ⟨hnone', Or.inr ⟨rfl, ot, s, hmap, hnext, rfl⟩⟩

/-- `ot_insert` acts as on the finite map. -/
theorem otInsert_map (hm : MapInv h w) (hnul : (0 : UInt8) ∉ id) (hid : KeyFits id)
    (hptr : dataPtr < 2 ^ 64) : ∃ r w', (otInsert id dataPtr w).2 = .ok (r, w') ∧
      (r = .duplicate ↔ (mapAfter h id).isSome) ∧ MapInv (h ++ [(.insert id dataPtr, r)]) w' := by
  have hspec : Spec (otInsert id dataPtr) (fun _ => True) _ _ w := otInsert_effect hm.inv
  obtain ⟨r, w', hret, heffect⟩ := hspec.returns
  obtain ⟨ot', hw', hinv', -⟩ := (otInsert_spec (C := fun _ => True) hm.inv hnul hptr).result hret
  refine ⟨r, w', hret, ?_⟩
  rw [hm.isSome hid]
  rcases heffect with ⟨rfl, hsome, rfl⟩ | ⟨hnone, ⟨rfl, rfl⟩ | ⟨rfl, ot, s, hmap, hnext, rfl⟩⟩
  · exact ⟨iff_of_true rfl hsome, hm.unchanged (by decide)⟩
  · refine ⟨iff_of_false (by decide) ?_, hm.unchanged (by decide)⟩
    rw [hnone]
    exact Bool.false_ne_true
  · refine ⟨iff_of_false (by decide) ?_, ?_, fun b => ?_, ?_, fun id' hid' => ?_⟩
    · rw [hnone]
      exact Bool.false_ne_true
    · rw [hw']
      exact hinv'
    · show (Function.update ot.hashmap _ _ b).Pairwise _
      rw [hmap]
      by_cases hb : b = bucketOf (id.take maxIdLength)
      · subst hb
        rw [Function.update_self, List.pairwise_cons]
        refine ⟨fun e he => ?_, hm.keys _⟩
        -- the bucket was searched for this key
        have hmiss := List.find?_eq_none.mp hnone e (hid ▸ he)
        rw [Bool.not_eq_true] at hmiss
        rw [← hmiss]
        unfold equalFn
        rw [List.take_take, min_self]
      · rw [Function.update_of_ne hb]
        exact hm.keys b
    · show ot.slotBufferNextIdx = _
      rw [hnext, hm.next]
      unfold removals
      rw [List.countP_append]
      rfl
    · have hget : otGet ot id' = otGet w.ot id' := by
        unfold otGet
        rw [hmap]
      have hkey : equalFn id' (id.take maxIdLength) = equalFn id' id := by
        unfold equalFn
        rw [List.take_take, min_self]
      rw [mapAfter_snoc]
      show (otGet (hashmapInsert ot _) id').map _ =
        if equalFn id' id then some dataPtr else mapAfter h id'
      rw [otGet_hashmapInsert hid' (List.length_take_le _ _), hget, hkey, ← hm.get id' hid']
      cases equalFn id' id <;> rfl

/-- An `ot_remove` that returns acts as on the finite map. -/
theorem MapInv.remove (hm : MapInv h w) (hid : KeyFits id) {r : OtResult} {w' : World}
    (hret : (otRemove id w).2 = .ok (r, w')) :
    (r = .ok ↔ (mapAfter h id).isSome) ∧ MapInv (h ++ [(.remove id, r)]) w' := by
  rw [hm.isSome hid]
  rcases (otRemove_cases (C := fun _ => True) hm.inv id).result hret with
    ⟨rfl, hnone, rfl⟩ | ⟨rfl, e, ot, hget, -, rfl, hinv', -, hnext, -, -, -, hmap⟩
  · rw [hnone]
    exact ⟨iff_of_false (by decide) Bool.false_ne_true, hm.unchanged (by decide)⟩
  rw [hget]
  refine ⟨iff_of_true rfl rfl, hinv', fun b => ?_, ?_, fun id' hid' => ?_⟩
  · show (ot.hashmap b).Pairwise _
    rw [hmap]
    by_cases hb : b = bucketOf id
    · subst hb
      rw [Function.update_self]
      exact (hm.keys _).sublist (List.eraseP_sublist ..)
    · rw [Function.update_of_ne hb]
      exact hm.keys b
  · show ot.slotBufferNextIdx = _
    rw [hnext, hm.next]
    unfold removals
    rw [List.countP_append]
    rfl
  · rw [mapAfter_snoc]
    show ((ot.hashmap _).find? _).map _ = if equalFn id' id then none else mapAfter h id'
    rw [otGet_erase hid hid' hmap hm.keys, ← hm.get id' hid']
    cases equalFn id' id <;> rfl

/-- `ot_remove` returns while the queue has room, or if the identifier is absent. -/
theorem otRemove_map (hm : MapInv h w) (hid : KeyFits id)
    (hroom : removals h < slotBufferSize ∨ mapAfter h id = none) : ∃ r w',
      (otRemove id w).2 = .ok (r, w') ∧
      (r = .ok ↔ (mapAfter h id).isSome) ∧ MapInv (h ++ [(.remove id, r)]) w' := by
  have hspec : Spec (otRemove id) (fun _ => True) (fun _ _ => True) (fun _ => False) w := by
    refine (otRemove_cases hm.inv id).mono (fun _ h => h) (fun _ _ _ => trivial) ?_
    rintro stop ⟨-, hsome, hfull⟩
    rw [hm.next] at hfull
    rw [← hm.isSome hid] at hsome
    rcases hroom with hlt | hnone
    · omega
    · rw [hnone] at hsome
      exact Bool.false_ne_true hsome
  obtain ⟨r, w', hret, -⟩ := hspec.returns
  exact ⟨r, w', hret, hm.remove hid hret⟩

end

/-! ## Whole runs -/

/-- Every run with fitting identifiers keeps the invariant. -/
theorem OtRun.mapInv {w₀ w : World} {h : List (OtCall × OtResult)} (hrun : OtRun w₀ h w)
    (h₀ : MapInv [] w₀) (hids : ∀ x ∈ h, (0 : UInt8) ∉ x.1.id ∧ KeyFits x.1.id) : MapInv h w := by
  induction hrun with
  | nil => exact h₀
  | @snoc h w w' c r hrun htyped hcall ih =>
    have hm := ih fun x hx => hids x (List.mem_append_left _ hx)
    obtain ⟨hnul, hfits⟩ := hids (c, r) (List.mem_append_right _ List.mem_cons_self)
    cases c with
    | insert id dataPtr =>
      obtain ⟨r', w'', hret, -, hm'⟩ := otInsert_map hm hnul hfits htyped
      obtain ⟨rfl, rfl⟩ : r' = r ∧ w'' = w' := by simpa using hret.symm.trans hcall
      exact hm'
    | remove id => exact (hm.remove hfits hcall).2

/-- The table after `nvm_initialize`. -/
theorem mapInv_start {P : Process} {nvm : Nvm} {fuel : ℕ} {w : World}
    (hinit : (nvmInitialize P.junk fuel false (P.start nvm)).2 = .ok ((), w)) : MapInv [] w := by
  obtain ⟨⟨-, -, ht, -⟩, hot, -⟩ := (nvmInitialize_fresh_spec P nvm P.junk fuel).result hinit
  refine ⟨ht.ot, fun b => ?_, ?_, fun id _ => ?_⟩
  · rw [hot]
    exact List.Pairwise.nil
  · rw [hot]
    rfl
  · rw [hot]
    rfl

/-- **The object table is a finite map** after every sequence of insertions and removals of identifiers
that are looked up in the bucket of their stored key, unless 200 entries have been removed and there is
one to remove. -/
theorem object_table_finite_map {P : Process} {nvm : Nvm} {fuel : ℕ} {w₀ w : World}
    {h : List (OtCall × OtResult)}
    (hinit : (nvmInitialize P.junk fuel false (P.start nvm)).2 = .ok ((), w₀)) (hrun : OtRun w₀ h w)
    (hids : ∀ x ∈ h, (0 : UInt8) ∉ x.1.id ∧ KeyFits x.1.id)
    (hroom : removals h < slotBufferSize ∨
      ∀ id, (0 : UInt8) ∉ id → KeyFits id → mapAfter h id = none) :
    FiniteMap (fun id => (0 : UInt8) ∉ id ∧ KeyFits id) h w := by
  have hm := hrun.mapInv (mapInv_start hinit) hids
  refine ⟨fun id hid => hm.get id hid.2, fun id dataPtr hid hptr => ?_, fun id hid => ?_⟩
  · obtain ⟨r, w', hret, hr, -⟩ := otInsert_map hm hid.1 hid.2 hptr
    exact ⟨r, w', hret, hr⟩
  · obtain ⟨r, w', hret, hr, -⟩ := otRemove_map hm hid.2 (hroom.imp_right fun h => h id hid.1 hid.2)
    exact ⟨r, w', hret, hr⟩

/-- A process starts on a blank medium. -/
theorem exists_start : ∃ w,
    (nvmInitialize sampleProcess.junk 20 false (sampleProcess.start blankNvm)).2 = .ok ((), w) := by
  have hok : (nvmInitialize sampleProcess.junk 20 false (sampleProcess.start blankNvm)).2.isOk =
      true := by
    decide +kernel
  revert hok
  cases (nvmInitialize sampleProcess.junk 20 false (sampleProcess.start blankNvm)).2 with
  | error e => exact fun hok => absurd hok Bool.false_ne_true
  | ok r => exact fun _ => ⟨r.2, rfl⟩

/-- The calls `h` return the results that stand beside them. -/
def otReplay (w : World) : List (OtCall × OtResult) → Option World
  | [] => some w
  | (c, r) :: h =>
    match (c.prog w).2 with
    | .ok (r', w') => if r' = r then otReplay w' h else none
    | .error _ => none

/-- What is replayed is a run. -/
theorem OtRun.append {w₀ w w' : World} {h h' : List (OtCall × OtResult)} (hrun : OtRun w₀ h w)
    (htyped : ∀ x ∈ h', x.1.Typed) (hreplay : otReplay w h' = some w') : OtRun w₀ (h ++ h') w' := by
  induction h' generalizing h w with
  | nil =>
    rw [List.append_nil]
    exact Option.some.inj hreplay ▸ hrun
  | cons x h' ih =>
    rw [otReplay] at hreplay
    split at hreplay
    · rename_i r w₁ hcall
      split at hreplay
      · rename_i hr
        rw [List.append_cons]
        refine ih (hrun.snoc (htyped x List.mem_cons_self) ?_)
          (fun y hy => htyped y (List.mem_cons_of_mem _ hy)) hreplay
        rw [hcall, hr]
      · cases hreplay
    · cases hreplay

/-- Three identifiers are inserted, the first is removed, and a fourth takes its slot. -/
def sampleCalls : List (OtCall × OtResult) :=
  [(.insert [97] 64, .ok), (.insert [98] 128, .ok), (.insert [99] 192, .ok), (.remove [97], .ok),
    (.insert [98] 256, .duplicate), (.remove [97], .fail), (.insert [100] 256, .ok)]

theorem exists_sampleCalls : ∃ w₀ w,
    (nvmInitialize sampleProcess.junk 20 false (sampleProcess.start blankNvm)).2 = .ok ((), w₀) ∧
    OtRun w₀ sampleCalls w := by
  have htest : returnsWith (fun _ w₀ => (otReplay w₀ sampleCalls).isSome)
      (nvmInitialize sampleProcess.junk 20 false (sampleProcess.start blankNvm)).2 = true := by
    decide +kernel
  obtain ⟨_, w₀, hinit, hreplay⟩ := of_returnsWith htest
  obtain ⟨w, hw⟩ := Option.isSome_iff_exists.mp hreplay
  exact ⟨w₀, w, hinit, OtRun.nil.append (by simp [OtCall.Typed]) hw⟩

/-- The table with the entries of three identifiers. -/
theorem object_table_finite_map_sample : ∃ w₀ w,
    (nvmInitialize sampleProcess.junk 20 false (sampleProcess.start blankNvm)).2 = .ok ((), w₀) ∧
    OtRun w₀ sampleCalls w ∧ FiniteMap (fun id => (0 : UInt8) ∉ id ∧ KeyFits id) sampleCalls w := by
  obtain ⟨w₀, w, hinit, hrun⟩ := exists_sampleCalls
  exact ⟨w₀, w, hinit, hrun, object_table_finite_map hinit hrun (by decide) (Or.inl (by decide))⟩

/-- An identifier of 55 characters: its bucket is not that of its first 54. -/
def longId : List UInt8 := List.replicate 55 97

/-- An identifier that is too long is stored and not found again. -/
theorem long_id_not_found : ∃ w₀ w,
    (nvmInitialize sampleProcess.junk 20 false (sampleProcess.start blankNvm)).2 = .ok ((), w₀) ∧
    OtRun w₀ [(.insert longId 64, .ok)] w ∧
    ¬ FiniteMap (fun id => (0 : UInt8) ∉ id) [(.insert longId 64, .ok)] w := by
  have htest : returnsWith (fun _ w₀ =>
      returnsWith (fun r w => decide (r = .ok) && (otGet w.ot longId).isNone) (otInsert longId 64 w₀).2)
      (nvmInitialize sampleProcess.junk 20 false (sampleProcess.start blankNvm)).2 = true := by
    decide +kernel
  obtain ⟨_, w₀, hinit, hinsert⟩ := of_returnsWith htest
  obtain ⟨r, w, hret, hlost⟩ := of_returnsWith hinsert
  rw [Bool.and_eq_true, decide_eq_true_iff, Option.isNone_iff_eq_none] at hlost
  obtain ⟨rfl, hnone⟩ := hlost
  refine ⟨w₀, w, hinit, .snoc .nil (by show 64 < 2 ^ 64; decide) hret, fun hmap => ?_⟩
  have hget := hmap.get longId (by decide)
  rw [hnone] at hget
  exact absurd hget (by decide)

end NvmMalloc
