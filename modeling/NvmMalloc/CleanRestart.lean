import NvmMalloc.RecoveredTable

/-!
# Named objects across a clean restart

Reference: `src/nvm_malloc.c` (`nvm_activate_id`, `nvm_free_id`, `nvm_get_id`, `nvm_teardown`,
`nvm_initialize`), `src/object_table.c`.

`NamedRun` carries, beside the state of a run, the map from the identifiers that were activated and not
freed since to the offsets of their regions.  The slots in state INITIALIZED are exactly its keys, and
`ot_recover` reads it back from them.  An identifier of 54 characters leaves no room for a NUL on NVM, so
what it is read back as depends on the memory behind it.
-/

namespace NvmMalloc

open Memory CrashM

/-! ## The activated identifiers of a run -/

/-- What a call does to the activated identifiers. -/
def Op.names (s : Sys) (names : List UInt8 → Option ℕ) : Op → List UInt8 → Option ℕ
  | .activateId id =>
    match otGet s.w.ot id with
    | none => names
    | some e => fun id' => if equalFn id' id then some e.dataPtr else names id'
  | .freeId id =>
    match otGet s.w.ot id with
    | none => names
    | some _ => fun id' => if equalFn id' id then none else names id'
  | _ => names

/-- The calls of a process that started on an empty heap, the state they lead to, and the identifiers
activated and not freed since. -/
inductive NamedRun (P : Process) : List Op → Sys → (List UInt8 → Option ℕ) → Prop where
  | start {nvm : Nvm} {fuel : ℕ} {w : World}
      (hinit : (nvmInitialize P.junk fuel false (P.start nvm)).2 = .ok ((), w)) :
      NamedRun P [] ⟨w, []⟩ fun _ => none
  | step {ops : List Op} {s s' : Sys} {names : List UInt8 → Option ℕ} {op : Op}
      (hs : NamedRun P ops s names) (hstep : Step s op s') :
      NamedRun P (ops ++ [op]) s' (op.names s names)

theorem NamedRun.reachable {P : Process} {ops : List Op} {s : Sys} {names : List UInt8 → Option ℕ}
    (h : NamedRun P ops s names) : Reachable P s := by
  induction h with
  | start hinit => exact .start hinit
  | step _ hstep ih => exact .step ih hstep

theorem NamedRun.execs {P : Process} {ops ops' : List Op} {s s' : Sys} {names : List UInt8 → Option ℕ}
    (h : NamedRun P ops s names) (hexecs : s.execs ops' = some s') :
    ∃ names', NamedRun P (ops ++ ops') s' names' := by
  induction ops' generalizing s ops names with
  | nil =>
    refine ⟨names, ?_⟩
    rw [List.append_nil, ← Option.some.inj hexecs]
    exact h
  | cons op ops' ih =>
    obtain ⟨s₁, hexec, hrest⟩ := Option.bind_eq_some_iff.mp hexecs
    obtain ⟨names', hrun⟩ := ih (h.step (Sys.step_of_exec hexec)) hrest
    refine ⟨names', ?_⟩
    rw [List.append_assoc] at hrun
    exact hrun

/-- A test of the state in which a history ends. -/
theorem Process.exists_namedRun {P : Process} {nvm : Nvm} {fuel : ℕ} {ops : List Op} {p : Sys → Bool}
    (h : (P.history nvm fuel ops).any p = true) : ∃ s names, NamedRun P ops s names ∧ p s = true := by
  cases hinit : (nvmInitialize P.junk fuel false (P.start nvm)).2 with
  | error e =>
    rw [Process.history, hinit] at h
    exact absurd h (by simp)
  | ok x =>
    obtain ⟨_, w⟩ := x
    rw [Process.history, hinit] at h
    change Option.any p ((⟨w, []⟩ : Sys).execs ops) = true at h
    cases hs : (⟨w, []⟩ : Sys).execs ops with
    | none =>
      rw [hs] at h
      exact absurd h (by simp)
    | some s =>
      rw [hs] at h
      obtain ⟨names, hrun⟩ := (NamedRun.start hinit).execs hs
      exact ⟨s, names, hrun, h⟩

/-! ## Active entries under one call -/

section

variable {P : Process} {s s' : Sys} {op : Op} {e : OtEntry} {id : List UInt8}

/-- A call that neither activates nor frees a region by its identifier leaves the active entries
alone. -/
theorem Step.activeEntry (h : SysInv P s) (hstep : Step s op s')
    (hact : ∀ id, op = .activateId id → otGet s.w.ot id = none)
    (hfree : ∀ id, op = .freeId id → otGet s.w.ot id = none) :
    ActiveEntry s'.w e ↔ ActiveEntry s.w e := by
  obtain ⟨L, hproc, ht, -⟩ := h
  obtain ⟨hvalid, hrun⟩ := hstep
  cases op with
  | reserve a nBytes =>
    obtain ⟨ha, hn, hmax⟩ := hvalid
    obtain ⟨L', ptr, -, -, hu, -⟩ := (nvmReserve_spec (B := .any) hproc ha hn hmax
      (fun _ => trivial) (fun _ _ => Blame.any_converts)).result hrun
    exact hu.activeEntry ht
  | activate ptr l1 l2 =>
    obtain ⟨⟨r, hr, rfl, hactive⟩, h1, h2⟩ := hvalid
    obtain ⟨_, w₁, hcall, hret⟩ := bind_result.mp hrun
    obtain ⟨L', -, hu, -⟩ := (nvmActivate_spec hproc hr hactive h1 h2).result hcall
    cases hret
    exact hu.activeEntry ht
  | free ptr l1 l2 =>
    obtain ⟨⟨r, hr, rfl, hactive⟩, h1, h2⟩ := hvalid
    obtain ⟨_, w₁, hcall, hret⟩ := bind_result.mp hrun
    obtain ⟨L', -, hu, -⟩ := (nvmFree_spec hproc hr hactive h1 h2).result hcall
    cases hret
    exact hu.activeEntry ht
  | write addr b =>
    obtain ⟨_, w₁, hcall, hret⟩ := bind_result.mp hrun
    cases hcall
    cases hret
    exact (untouched_write hproc hvalid).activeEntry ht
  | reserveId id a nBytes =>
    obtain ⟨hnul, ha, hn, hmax⟩ := hvalid
    obtain ⟨-, -, hsame, -⟩ := (nvmReserveId_spec (B := .any) hproc ht hnul ha hn hmax
      (fun _ _ => trivial) (fun _ _ _ => Blame.any_converts)).result hrun
    exact hsame e
  | activateId id =>
    obtain ⟨_, w₁, hcall, hret⟩ := bind_result.mp hrun
    cases hret
    have hspec : Spec (nvmActivateId id) (fun _ => True) (fun _ w' => w' = s.w) (fun _ => True) s.w := by
      simp only [nvmActivateId, spec_bind, spec_get, hact id rfl, spec_pure]
    rw [hspec.result hcall]
  | freeId id =>
    obtain ⟨_, w₁, hcall, hret⟩ := bind_result.mp hrun
    cases hret
    have hspec : Spec (nvmFreeId id) (fun _ => True) (fun _ w' => w' = s.w) (fun _ => True) s.w := by
      simp only [nvmFreeId, spec_bind, spec_get, hfree id rfl, spec_pure]
    rw [hspec.result hcall]

/-- An activation by identifier makes its entry active. -/
theorem Step.activeEntry_activateId (h : SysInv P s) (hstep : Step s (.activateId id) s')
    (hget : otGet s.w.ot id = some e) (e' : OtEntry) :
    ActiveEntry s'.w e' ↔ ActiveEntry s.w e' ∨ e' = e := by
  obtain ⟨L, hproc, ht, -⟩ := h
  obtain ⟨⟨-, hout⟩, hrun⟩ := hstep
  obtain ⟨r, hr, hptr, hactive⟩ := hout e hget
  obtain ⟨_, w₁, hcall, hret⟩ := bind_result.mp hrun
  cases hret
  obtain ⟨L', -, -, -, hnew, -⟩ := (nvmActivateId_spec hproc ht hget hr hptr hactive).result hcall
  exact hnew e'

/-- A free by identifier drops its entry. -/
theorem Step.activeEntry_freeId (h : SysInv P s) (hstep : Step s (.freeId id) s')
    (hget : otGet s.w.ot id = some e) (e' : OtEntry) :
    ActiveEntry s'.w e' ↔ ActiveEntry s.w e' ∧ e' ≠ e := by
  obtain ⟨L, hproc, ht, -⟩ := h
  obtain ⟨⟨-, hout⟩, hrun⟩ := hstep
  obtain ⟨r, hr, hptr, hactive⟩ := hout e hget
  obtain ⟨_, w₁, hcall, hret⟩ := bind_result.mp hrun
  cases hret
  obtain ⟨L', -, -, -, hnew, -⟩ := (nvmFreeId_spec hproc ht hget hr hptr hactive).result hcall
  exact hnew e'

/-! ## The names are the keys of the active entries -/

/-- The activated identifiers are those of the active entries, which are short. -/
structure NamesInv (w : World) (names : List UInt8 → Option ℕ) : Prop where
  short : ∀ e, ActiveEntry w e → e.id.length < maxIdLength
  names : ∀ id ptr, names id = some ptr ↔ ∃ e, ActiveEntry w e ∧ e.id = id ∧ e.dataPtr = ptr

/-- One call moves the names with the active entries. -/
theorem NamesInv.step {names : List UInt8 → Option ℕ} (hn : NamesInv s.w names) (h : SysInv P s)
    (hstep : Step s op s') (hshort : ∀ id, op = .activateId id → id.length < maxIdLength) :
    NamesInv s'.w (op.names s names) := by
  have hother (hact : ∀ id, op = .activateId id → otGet s.w.ot id = none)
      (hfree : ∀ id, op = .freeId id → otGet s.w.ot id = none) : NamesInv s'.w names := by
    have hsame : ∀ e, ActiveEntry s'.w e ↔ ActiveEntry s.w e := fun e => hstep.activeEntry h hact hfree
    exact ⟨fun e he => hn.short e ((hsame e).mp he), fun id ptr => by simp only [hn.names, hsame]⟩
  obtain ⟨-, -, ht, -⟩ := id h
  cases op with
  | reserve | activate | free | write | reserveId => exact hother (by simp) (by simp)
  | activateId id =>
    cases hget : otGet s.w.ot id with
    | none =>
      rw [Op.names, hget]
      exact hother (fun id' heq => by cases heq; exact hget) (by simp)
    | some e =>
      rw [Op.names, hget]
      have hlen := hshort id rfl
      have hid : e.id = id := by
        rw [ht.ot.id_of_otGet hget, List.take_of_length_le hlen.le]
      have hactive := hstep.activeEntry_activateId h hget
      refine ⟨fun e' he' => ?_, fun id' ptr => ?_⟩
      · rcases (hactive e').mp he' with hold | rfl
        · exact hn.short e' hold
        · rw [hid]
          exact hlen
      · dsimp only
        by_cases heq : id' = id
        · rw [if_pos ((equalFn_iff_of_short hlen).mpr heq), heq]
          constructor
          · intro hptr
            exact ⟨e, (hactive e).mpr (Or.inr rfl), hid, Option.some.inj hptr⟩
          · rintro ⟨e', he', hid', rfl⟩
            -- no two entries share a short identifier
            have hhas : s.w.ot.Has e' := by
              rcases (hactive e').mp he' with hold | rfl
              · exact hold.1
              · exact ⟨_, (otGet_has hget).1⟩
            rw [ht.ot.ids hhas ⟨_, (otGet_has hget).1⟩ (hid'.trans hid.symm) (hid' ▸ hlen)]
        · rw [if_neg fun h => heq ((equalFn_iff_of_short hlen).mp h), hn.names]
          refine exists_congr fun e' => and_congr_left fun ⟨hid', _⟩ => ?_
          rw [hactive]
          refine (or_iff_left ?_).symm
          rintro rfl
          exact heq (hid'.symm.trans hid)
  | freeId id =>
    cases hget : otGet s.w.ot id with
    | none =>
      rw [Op.names, hget]
      exact hother (by simp) (fun id' heq => by cases heq; exact hget)
    | some e =>
      rw [Op.names, hget]
      have hid : e.id = id.take maxIdLength := ht.ot.id_of_otGet hget
      have hactive := hstep.activeEntry_freeId h hget
      refine ⟨fun e' he' => hn.short e' ((hactive e').mp he').1, fun id' ptr => ?_⟩
      dsimp only
      by_cases heq : equalFn id' id = true
      · rw [if_pos heq]
        refine iff_of_false (by simp) ?_
        rintro ⟨e', he', rfl, -⟩
        obtain ⟨hold, hne⟩ := (hactive e').mp he'
        have hlen := hn.short e' hold
        rw [equalFn_iff, List.take_of_length_le hlen.le, ← hid] at heq
        exact hne (ht.ot.ids hold.1 ⟨_, (otGet_has hget).1⟩ heq hlen)
      · rw [if_neg heq, hn.names]
        refine exists_congr fun e' => and_congr_left fun ⟨hid', _⟩ => ?_
        rw [hactive]
        refine (and_iff_left ?_).symm
        rintro rfl
        rw [equalFn_iff, ← hid', hid, List.take_take, min_self] at heq
        exact heq rfl

/-- In a run with short activated identifiers the names are those of the active entries. -/
theorem NamedRun.namesInv {ops : List Op} {names : List UInt8 → Option ℕ} (h : NamedRun P ops s names)
    (hshort : ∀ id, .activateId id ∈ ops → id.length < maxIdLength) : NamesInv s.w names := by
  induction h with
  | @start nvm fuel w hinit =>
    have hot := ((nvmInitialize_fresh_spec P nvm P.junk fuel).result hinit).2.1
    have hno : ∀ e, ¬ ActiveEntry w e := by
      rintro e ⟨⟨b, hb⟩, -⟩
      rw [hot] at hb
      exact List.not_mem_nil hb
    refine ⟨fun e he => absurd he (hno e), fun id ptr => iff_of_false (by simp) ?_⟩
    rintro ⟨e, he, -⟩
    exact hno e he
  | @step ops s s' names op hs hstep ih =>
    refine (ih fun id hid => hshort id (List.mem_append_left _ hid)).step
      (sysInv_of_reachable hs.reachable) hstep fun id hid => hshort id ?_
    rw [hid]
    exact List.mem_append_right _ List.mem_cons_self

end

/-! ## Reading the names back -/

/-- A restart on `img` completes, and afterwards `nvm_get_id` knows exactly `names`, at the new base. -/
structure RestoresNames (P : Process) (img : Nvm) (names : List UInt8 → Option ℕ) : Prop where
  completes : ∃ w, Recovers P img w
  getId : ∀ w, Recovers P img w → ∀ id, (0 : UInt8) ∉ id →
    id.length ≤ maxIdLength ∨ (names id).isSome →
    (nvmGetId w id).map (w.nvmStart + ·) = (names id).map (P.nvmStart + ·)

section

variable {P : Process} {B : Blame} {L : Layout} {p₀ : ℕ} {w w' : World} {m : Mem} {n : ℕ}

/-- A slot in use holds an active entry. -/
theorem TableInv.activeEntry_of_used (ht : TableInv w) (hn : n < 1260)
    (hslot : EqOn w.nvm.mem m (otSlotAddr n) 64) (hused : SlotUsed m n) :
    ∃ e, ActiveEntry w e ∧ e.slot = n ∧ EntryOk w.ot (bucketOf e.id) e ∧ OnNvm m e := by
  rw [slotUsed_eqOn hslot] at hused
  obtain ⟨e, ⟨b, hmem⟩, rfl, hnvm⟩ := ht.initialized n hn hused
  have hentry := ht.ot.entry hmem
  refine ⟨e, ⟨⟨b, hmem⟩, hused⟩, rfl, hentry.bucket ▸ hentry, hnvm.congr ?_⟩
  rw [hentry.addr]
  exact hslot

/-- A table whose slots are idle is restored if recovery of the heap goes through. -/
theorem Blames.restoresNames {names : List UInt8 → Option ℕ} (hb : Blames B L w.nvm)
    (himg : ImgInv L p₀ w.nvm) (hB : ¬ B.grow ∧ ¬ B.convert ∧ ¬ B.fresh ∧ ¬ B.stale) (ht : TableInv w)
    (hn : NamesInv w names) (hchunks : 20 ≤ w.nvm.nextChunk)
    (hgaps : (gapSlots w.nvm.mem 1260).length ≤ slotBufferSize) : RestoresNames P w.nvm names := by
  refine ⟨hb.exists_recovers himg hB hchunks ht.chain hgaps P, fun w' hrec id _ _ => ?_⟩
  obtain ⟨-, hconv, -, hstale⟩ := hB
  obtain ⟨-, -, w₁, -, -, hstart, hslots, hread⟩ :=
    hb.tableRead himg hconv hstale hchunks ht.chain hrec
  -- what a used slot is read back as
  have hentry : ∀ s < 1260, SlotUsed w₁.nvm.mem s → ∃ e, ActiveEntry w e ∧ e.slot = s ∧
      (recoveredEntry P.junk w₁.nvm.mem s).id = e.id ∧
      (recoveredEntry P.junk w₁.nvm.mem s).dataPtr = e.dataPtr := by
    intro s hs hused
    obtain ⟨e, hactive, rfl, hok, hnvm⟩ := ht.activeEntry_of_used hs (hslots s hs) hused
    have hkey := hnvm.recoveredKey_eq hok.nul (hn.short e hactive) (P.junk e.slot)
    have hptr := hnvm.ptr
    rw [hok.addr] at hkey hptr
    exact ⟨e, hactive, rfl, hkey, hptr⟩
  have hget : nvmGetId w' id = names id := by
    refine hread.nvmGetId_eq (fun id ptr => ?_) (fun s hs hused => ?_) id
    · rw [hn.names]
      constructor
      · rintro ⟨e, he, rfl, rfl⟩
        have hs := ht.slot_lt he.1
        have hused := (slotUsed_eqOn (hslots _ hs)).mpr he.2
        obtain ⟨e', he', hslot, hid, hptr⟩ := hentry e.slot hs hused
        rw [ht.ot.slots he'.1 he.1 hslot] at hid hptr
        exact ⟨e.slot, hs, hused, hid, hptr⟩
      · rintro ⟨s, hs, hused, rfl, rfl⟩
        obtain ⟨e, he, -, hid, hptr⟩ := hentry s hs hused
        exact ⟨e, he, hid.symm, hptr.symm⟩
    · obtain ⟨e, he, -, hid, -⟩ := hentry s hs hused
      rw [hid]
      exact hn.short e he
  rw [hread.nvmStart_eq, hstart, hget]

end

/-- **Named objects survive a clean restart** if the activated identifiers are shorter than 54
characters and at most 200 unused slots lie below the last used one. -/
theorem names_survive_restart {P P' : Process} {ops : List Op} {s : Sys} {names : List UInt8 → Option ℕ}
    (hrun : NamedRun P ops s names) (hshort : ∀ id, .activateId id ∈ ops → id.length < maxIdLength)
    (hgaps : (gapSlots s.w.nvm.mem 1260).length ≤ slotBufferSize) :
    RestoresNames P' s.w.nvm names := by
  have hinv := sysInv_of_reachable hrun.reachable
  obtain ⟨L, p₀, himg, -, hblames⟩ := hinv.crashOk (.write 0 0)
  obtain ⟨L', hproc, ht, -⟩ := hinv
  have hchunks : 19 < s.w.nvm.nextChunk := hproc.nvm.lt_nextChunk (hproc.nvm.base 19 (by decide))
  exact hblames.restoresNames himg ⟨id, id, id, id⟩ ht (hrun.namesInv hshort) hchunks hgaps

/-- The name of one activated region survives. -/
theorem names_survive_restart_one : ∃ s names,
    NamedRun sampleProcess [.reserveId [97] 0 100, .activateId [97]] s names ∧
    RestoresNames sampleProcess s.w.nvm names := by
  have hany : ((sampleHistory [.reserveId [97] 0 100, .activateId [97]]).any fun s =>
      decide (s.w.ot.nextNvmSlot ≤ slotBufferSize)) = true := by decide +kernel
  obtain ⟨s, names, hrun, hfew⟩ := Process.exists_namedRun hany
  refine ⟨s, names, hrun, names_survive_restart hrun (fun id hid => ?_) ?_⟩
  · have hone : id = [97] := by simpa using hid
    rw [hone]
    decide
  · obtain ⟨-, -, ht, -⟩ := sysInv_of_reachable hrun.reachable
    exact (ht.ot.gapSlots_length_le ht.initialized).trans (of_decide_eq_true hfew)

/-- An identifier that fills the field on NVM. -/
def fullId : List UInt8 := List.replicate 54 97

/-- A process whose `malloc` leaves the letter a behind the copied identifiers. -/
def dirtyProcess : Process := { sampleProcess with junk := fun _ => [97] }

/-- An identifier of 54 characters is gone after a restart. -/
theorem full_id_lost : ∃ s names,
    NamedRun sampleProcess [.reserveId fullId 0 100, .activateId fullId] s names ∧
    ¬ RestoresNames dirtyProcess s.w.nvm names := by
  have hany : ((sampleHistory [.reserveId fullId 0 100]).any fun s =>
      (s.exec (.activateId fullId)).isSome && (otGet s.w.ot fullId).isSome) = true := by decide +kernel
  obtain ⟨s₁, names₁, hrun₁, htest⟩ := Process.exists_namedRun hany
  rw [Bool.and_eq_true, Option.isSome_iff_exists, Option.isSome_iff_exists] at htest
  obtain ⟨⟨s, hexec⟩, e₁, hget₁⟩ := htest
  have hrun := hrun₁.step (Sys.step_of_exec hexec)
  have hname : Op.names s₁ names₁ (.activateId fullId) fullId = some e₁.dataPtr := by
    rw [Op.names, hget₁]
    exact if_pos (equalFn_iff.mpr rfl)
  refine ⟨s, _, hrun, fun hres => ?_⟩
  obtain ⟨w', hrec⟩ := hres.completes
  have hfound := hres.getId w' hrec fullId (by decide) (Or.inl (by decide))
  rw [hname] at hfound
  have hinv := sysInv_of_reachable hrun.reachable
  obtain ⟨L, p₀, himg, -, hblames⟩ := hinv.crashOk (.write 0 0)
  obtain ⟨L', hproc, ht, -⟩ := hinv
  have hchunks : 19 < s.w.nvm.nextChunk := hproc.nvm.lt_nextChunk (hproc.nvm.base 19 (by decide))
  obtain ⟨-, -, w₁, -, -, -, hslots, hread⟩ :=
    hblames.tableRead himg id id hchunks ht.chain hrec
  -- whatever is found was read from a slot in use, and lies in another bucket
  cases hget : otGet w'.ot fullId with
  | none =>
    rw [nvmGetId, hget] at hfound
    exact absurd hfound (by simp)
  | some x =>
    obtain ⟨hmem, heq⟩ := otGet_has hget
    have hbucket : bucketOf x.id = bucketOf fullId := by
      rw [hread.hashmap, List.mem_filter] at hmem
      exact of_decide_eq_true hmem.2
    obtain ⟨n, hn, hused, rfl⟩ := hread.has_iff.mp ⟨_, hmem⟩
    obtain ⟨e, -, rfl, hok, hnvm⟩ := ht.activeEntry_of_used hn (hslots n hn) hused
    rcases hok.len.lt_or_eq with hlt | hlen
    · have hkey := hnvm.recoveredKey_eq hok.nul hlt (dirtyProcess.junk e.slot)
      rw [hok.addr] at hkey
      rw [show (recoveredEntry dirtyProcess.junk w₁.nvm.mem e.slot).id = e.id from hkey,
        equalFn_iff_of_short hlt] at heq
      rw [← heq] at hlt
      exact absurd hlt (by decide)
    · have hkey := hnvm.recoveredKey_full hok.nul hlen (dirtyProcess.junk e.slot)
      rw [hok.addr] at hkey
      rw [show (recoveredEntry dirtyProcess.junk w₁.nvm.mem e.slot).id = e.id ++ [97] from hkey]
        at heq hbucket
      rw [equalFn_iff, List.take_append_of_le_length hlen.ge, List.take_of_length_le hlen.le] at heq
      rw [← heq] at hbucket
      exact absurd hbucket (by decide +kernel)

end NvmMalloc
