import NvmMalloc.Types
import NvmMalloc.Lib.Interleaving

/-!
# VHeader pointers across processes

Reference: `src/arena.c` (`arena_free`, `arena_create_run`), `src/nvm_malloc.c` (`nvm_initialize`,
`nvm_initialize_recovered`, `nvm_recovery_thread`).

A run header on NVM holds a pointer into the memory of the process that wrote it.  The pointer is good if
the `version` beside it is that of the running process, which takes a new version from NVM when it
starts. This module follows one run header through any number of processes, each ended by a crash at
any point, and inside a process through any interleaving of the recovery thread with the frees of
slots of the run.

Pointers are addresses; `created` holds those of the VHeaders that this process has created.
-/

namespace NvmMalloc

open Interleaving

/-! ## The model -/

/-- The start of a process: `current_version` is to be loaded, the version on NVM is to be increased, the
log loop may replay the run header, its `version` is stored, and the process is up. -/
inductive Boot where
  | loading
  | bumping
  | replaying
  | stamped (run : ℕ)
  | up
deriving DecidableEq

/-- The recovery thread at this run header. -/
inductive ThreadPc where
  | readVdata
  | readVersion (tmpRun : ℕ)
  | lock (tmpRun run : ℕ)
  | compare (tmpRun run : ℕ)
  | storeVdata (run : ℕ)
  | storeVersion
  | unlock
  | done
deriving DecidableEq

/-- `arena_free` on a slot of the run. -/
inductive FreePc where
  | acquire
  | readVdata
  | readVersion (run : ℕ)
  | lock (run tmpRun : ℕ)
  | compare (run tmpRun : ℕ)
  | storeVdata (tmpRun : ℕ)
  | storeVersion
  | unlock
  | rereadVdata
  | deref (run : ℕ)
  | done
deriving DecidableEq

/-- The run header and the version on NVM, and the process. -/
structure VState where
  -- on NVM: the version in the meta file, whether the run exists, its header, whether its state byte is
  -- held by an operation
  metaVersion : ℕ
  present : Bool
  vdata : ℕ
  version : ℕ
  held : Bool
  -- of the process
  boot : Boot
  currentVersion : ℕ
  created : ℕ → Bool
  mutex : Bool
  thread : ThreadPc
  free : ℕ → FreePc
  -- how many processes have recovered
  recoveries : ℕ

/-- What can happen.  `a` is the address that `malloc` returns, if the action calls it. -/
inductive VAction where
  | restart
  | load
  | bump
  | replay (a : ℕ)
  | storeVdata
  | start
  | createRun (a : ℕ)
  | thread (a : ℕ)
  | free (k a : ℕ)

/-- `malloc` of a VHeader. -/
def VState.malloc (s : VState) (a : ℕ) : VState :=
  { s with created := Function.update s.created a true }

/-- Free `k` moves to `pc`. -/
def VState.moveFree (s : VState) (k : ℕ) (pc : FreePc) : VState :=
  { s with free := Function.update s.free k pc }

/-- The start of the next process: all threads and VHeaders are gone. -/
def VState.restarted (s : VState) : VState :=
  { s with
    boot := .loading
    currentVersion := 0
    created := fun _ => false
    mutex := false
    thread := .readVdata
    free := fun _ => .acquire
    recoveries := s.recoveries + 1 }

/-- The next step of the recovery thread. -/
def threadStep (s : VState) (a : ℕ) : Option VState :=
  match s.thread with
  | .readVdata => some { s with thread := .readVersion s.vdata }
  | .readVersion tmpRun =>
    if s.version < s.currentVersion then
      some { s.malloc a with thread := .lock tmpRun a }
    else
      some { s with thread := .done }
  | .lock tmpRun run =>
    if s.mutex then none else some { s with mutex := true, thread := .compare tmpRun run }
  | .compare tmpRun run =>
    some { s with thread := if tmpRun = s.vdata then .storeVdata run else .unlock }
  | .storeVdata run => some { s with vdata := run, thread := .storeVersion }
  | .storeVersion => some { s with version := s.currentVersion % 2 ^ 32, thread := .unlock }
  | .unlock => some { s with mutex := false, thread := .done }
  | .done => none

/-- The next step of free `k`. -/
def freeStep (s : VState) (k a : ℕ) : Option VState :=
  match s.free k with
  | .acquire =>
    -- the compare-and-swap
    if s.held then none else some { s.moveFree k .readVdata with held := true }
  | .readVdata => some (s.moveFree k (.readVersion s.vdata))
  | .readVersion run =>
    if s.version < s.currentVersion then
      some ((s.malloc a).moveFree k (.lock run a))
    else
      some (s.moveFree k (.deref run))
  | .lock run tmpRun =>
    if s.mutex then none else some { s.moveFree k (.compare run tmpRun) with mutex := true }
  | .compare run tmpRun =>
    some (s.moveFree k (if run = s.vdata then .storeVdata tmpRun else .unlock))
  | .storeVdata tmpRun => some { s.moveFree k .storeVersion with vdata := tmpRun }
  | .storeVersion =>
    some { s.moveFree k .unlock with version := s.currentVersion % 2 ^ 32 }
  | .unlock => some { s.moveFree k .rereadVdata with mutex := false }
  | .rereadVdata => some (s.moveFree k (.deref s.vdata))
  | .deref _ => some { s.moveFree k .done with held := false }
  | .done => none

/-- One action.  Fewer than 2^32 processes recover. -/
def vStep (s : VState) : VAction → Option VState
  | .restart => if s.recoveries + 1 < 2 ^ 32 then some s.restarted else none
  | .load =>
    if s.boot = .loading then some { s with boot := .bumping, currentVersion := s.metaVersion } else none
  | .bump =>
    if s.boot = .bumping then
      some { s with boot := .replaying, metaVersion := (s.metaVersion + 1) % 2 ^ 64 }
    else
      none
  | .replay a =>
    -- the log loop stores `version` before `vdata`
    if s.boot = .replaying ∧ s.present = true then
      some { s.malloc a with boot := .stamped a, version := s.currentVersion % 2 ^ 32 }
    else
      none
  | .storeVdata =>
    match s.boot with
    | .stamped run => some { s with boot := .replaying, vdata := run, held := false }
    | _ => none
  | .start => if s.boot = .replaying then some { s with boot := .up } else none
  | .createRun a =>
    if s.boot = .up ∧ s.present = false then
      some { s.malloc a with
        present := true, vdata := a, version := s.currentVersion % 2 ^ 32, held := false }
    else
      none
  | .thread a => if s.boot = .up ∧ s.present = true then threadStep s a else none
  | .free k a => if s.boot = .up ∧ s.present = true then freeStep s k a else none

/-- After `nvm_initialize_empty`: version 1 on NVM, `current_version` 0, no run yet, no recovery
thread. -/
def VState.Initial (s : VState) : Prop :=
  s.metaVersion = 1 ∧ s.present = false ∧ s.boot = .up ∧ s.currentVersion = 0 ∧ s.mutex = false ∧
    s.thread = .done ∧ (∀ k, s.free k = .acquire) ∧ s.recoveries = 0

/-- Every VHeader that a free is about to dereference was created in this process. -/
def NoStaleDeref (s : VState) : Prop := ∀ k run, s.free k = .deref run → s.created run = true

/-- The recovery thread does not store `version` while a free is between its reads of `vdata` and
`version`. -/
def NoPublishBetweenReads (s : VState) : VAction → Prop
  | .thread _ => s.thread = .storeVersion → ∀ k run, s.free k ≠ .readVersion run
  | _ => True

/-! ## The invariant -/

/-- What a free at `pc` relies on. -/
def FreeOk (s : VState) : FreePc → Prop
  | .acquire | .readVdata | .done => True
  | .readVersion run => (s.version = s.currentVersion → s.created run = true) ∧
      (run = s.vdata ∨ s.created s.vdata = true)
  | .lock run tmpRun | .compare run tmpRun =>
    s.created tmpRun = true ∧ (run = s.vdata ∨ s.created s.vdata = true)
  | .storeVdata tmpRun => s.created tmpRun = true
  | .storeVersion | .unlock | .rereadVdata => s.created s.vdata = true
  | .deref run => s.created run = true

/-- What the recovery thread relies on. -/
def ThreadOk (s : VState) : ThreadPc → Prop
  | .lock _ run | .compare _ run | .storeVdata run => s.created run = true
  | .storeVersion => s.created s.vdata = true
  | .readVdata | .readVersion _ | .unlock | .done => True

/-- The free has acquired the run and not released it. -/
def FreePc.Inside : FreePc → Prop
  | .acquire | .done => False
  | _ => True

/-- What the start of the process has established. -/
def BootOk (s : VState) : Prop :=
  match s.boot with
  | .loading => s.metaVersion ≤ s.recoveries
  | .bumping => s.metaVersion ≤ s.recoveries ∧ s.currentVersion = s.metaVersion
  | .stamped run => s.metaVersion ≤ s.recoveries + 1 ∧ s.currentVersion + 1 = s.metaVersion ∧
      s.created run = true
  | .replaying | .up => s.metaVersion ≤ s.recoveries + 1 ∧ s.currentVersion + 1 = s.metaVersion ∧
      (s.present = true → s.version = s.currentVersion → s.created s.vdata = true)

/-- The invariant of all processes. -/
structure VInv (s : VState) : Prop where
  recoveries : s.recoveries < 2 ^ 32
  version : s.present = true → s.version < s.metaVersion
  boot : BootOk s
  thread : ThreadOk s s.thread
  free : ∀ k, FreeOk s (s.free k)
  inside : ∀ {k}, (s.free k).Inside → s.held = true ∧ s.present = true ∧ s.boot = .up
  unique : ∀ {j k}, (s.free j).Inside → (s.free k).Inside → j = k

section

variable {s s' : VState} {k a : ℕ}

/-- More VHeaders, and a `vdata` that is as before or one of them. -/
structure VExtends (s s' : VState) : Prop where
  created : ∀ {x}, s.created x = true → s'.created x = true
  vdata : s'.vdata = s.vdata ∨ s'.created s'.vdata = true

theorem VExtends.vdata_created (h : VExtends s s') (hs : s.created s.vdata = true) :
    s'.created s'.vdata = true := by
  rcases h.vdata with heq | hnew
  · rw [heq]
    exact h.created hs
  · exact hnew

/-- A pointer read earlier: it is still `vdata`, or `vdata` is good by now. -/
theorem VExtends.read (h : VExtends s s') {run : ℕ} (hrun : run = s.vdata ∨ s.created s.vdata = true) :
    run = s'.vdata ∨ s'.created s'.vdata = true := by
  rcases hrun with heq | hnew
  · exact h.vdata.imp_left fun hsame => heq.trans hsame.symm
  · exact Or.inr (h.vdata_created hnew)

theorem VExtends.freeOk (h : VExtends s s') {pc : FreePc} (hpc : FreeOk s pc)
    (hver : (∃ run, pc = .readVersion run) → s'.version = s'.currentVersion →
      s.version = s.currentVersion) : FreeOk s' pc := by
  cases pc with
  | acquire => trivial
  | readVdata => trivial
  | done => trivial
  | readVersion run =>
    exact ⟨fun hcur => h.created (hpc.1 (hver ⟨run, rfl⟩ hcur)), h.read hpc.2⟩
  | lock run tmpRun => exact ⟨h.created hpc.1, h.read hpc.2⟩
  | compare run tmpRun => exact ⟨h.created hpc.1, h.read hpc.2⟩
  | storeVdata tmpRun => exact h.created hpc
  | storeVersion => exact h.vdata_created hpc
  | unlock => exact h.vdata_created hpc
  | rereadVdata => exact h.vdata_created hpc
  | deref run => exact h.created hpc

theorem VExtends.threadOk (h : VExtends s s') {pc : ThreadPc} (hpc : ThreadOk s pc) :
    ThreadOk s' pc := by
  cases pc with
  | lock _ run => exact h.created hpc
  | compare _ run => exact h.created hpc
  | storeVdata run => exact h.created hpc
  | storeVersion => exact h.vdata_created hpc
  | readVdata => trivial
  | readVersion _ => trivial
  | unlock => trivial
  | done => trivial

theorem VExtends.refl (hcreated : s'.created = s.created) (hvdata : s'.vdata = s.vdata) :
    VExtends s s' :=
  ⟨fun h => hcreated ▸ h, Or.inl hvdata⟩

theorem VExtends.malloc (hcreated : s'.created = (s.malloc a).created) (hvdata : s'.vdata = s.vdata) :
    VExtends s s' := by
  refine ⟨fun {x} hx => ?_, Or.inl hvdata⟩
  rw [hcreated]
  by_cases hxa : x = a
  · rw [hxa]
    exact Function.update_self ..
  · exact (Function.update_of_ne hxa ..).trans hx

theorem VInv.currentVersion_lt (h : VInv s) (hboot : s.boot = .up) :
    s.currentVersion % 2 ^ 32 = s.currentVersion ∧ s.currentVersion + 1 = s.metaVersion := by
  have hb := h.boot
  have hrec := h.recoveries
  unfold BootOk at hb
  rw [hboot] at hb
  exact ⟨Nat.mod_eq_of_lt (by omega), hb.2.1⟩

/-- A step of a process that is up: `version` is as before or stored over a good `vdata`. -/
theorem VInv.step_up (h : VInv s) (hup : s.boot = .up) (hext : VExtends s s')
    (hboot : s'.boot = s.boot) (hmeta : s'.metaVersion = s.metaVersion)
    (hrec : s'.recoveries = s.recoveries) (hcur : s'.currentVersion = s.currentVersion)
    (hpresent : s'.present = s.present)
    (hver : s'.version = s.version ∨
      s'.version = s.currentVersion ∧ s'.created s'.vdata = true)
    (hthread : ThreadOk s' s'.thread) (hfree : ∀ k, FreeOk s' (s'.free k))
    (hinside : ∀ {k}, (s'.free k).Inside → s'.held = true ∧ s.present = true)
    (hunique : ∀ {j k}, (s'.free j).Inside → (s'.free k).Inside → j = k) : VInv s' := by
  have hlt := h.currentVersion_lt hup
  have hb := h.boot
  unfold BootOk at hb
  rw [hup] at hb
  refine ⟨hrec ▸ h.recoveries, fun hp => ?_, ?_, hthread, hfree, fun hk => ?_, hunique⟩
  · rw [hmeta]
    rw [hpresent] at hp
    rcases hver with heq | ⟨heq, -⟩
    · rw [heq]
      exact h.version hp
    · omega
  · unfold BootOk
    rw [hboot, hup]
    refine ⟨by rw [hmeta, hrec]; exact hb.1, by rw [hcur, hmeta]; exact hb.2.1, fun hp heq => ?_⟩
    rcases hver with hsame | ⟨-, hgood⟩
    · exact hext.vdata_created (hb.2.2 (hpresent ▸ hp) (by rw [← hsame, heq, hcur]))
    · exact hgood
  · obtain ⟨hheld, hp⟩ := hinside hk
    exact ⟨hheld, by rw [hpresent, hp], by rw [hboot, hup]⟩

/-- A step of the recovery thread. -/
theorem VInv.threadStep (h : VInv s) (hup : s.boot = .up)
    (hguard : s.thread = .storeVersion → ∀ k run, s.free k ≠ .readVersion run)
    (hstep : threadStep s a = some s') : VInv s' := by
  have hlt := h.currentVersion_lt hup
  have hpc := h.thread
  -- the frees do not move
  have hframe : ∀ {s' : VState}, VExtends s s' → s'.free = s.free → s'.held = s.held →
      s'.boot = s.boot → s'.metaVersion = s.metaVersion → s'.recoveries = s.recoveries →
      s'.currentVersion = s.currentVersion → s'.present = s.present →
      (s'.version = s.version ∨ s.thread = .storeVersion ∧ s'.version = s.currentVersion ∧
        s'.created s'.vdata = true) → ThreadOk s' s'.thread → VInv s' := by
    intro s' hext hfree hheld hboot hmeta hrec hcur hpresent hver hthread
    refine h.step_up hup hext hboot hmeta hrec hcur hpresent (hver.imp_right And.right) hthread
      (fun k => ?_) (fun {k} hk => ?_) fun {j k} hj hk => ?_
    · rw [hfree]
      refine hext.freeOk (h.free k) fun ⟨run, hrun⟩ heq => ?_
      rcases hver with hsame | ⟨hstore, -⟩
      · rw [← hsame, heq, hcur]
      · exact absurd hrun (hguard hstore k run)
    · rw [hfree] at hk
      exact ⟨hheld ▸ (h.inside hk).1, (h.inside hk).2.1⟩
    · rw [hfree] at hj hk
      exact h.unique hj hk
  unfold NvmMalloc.threadStep at hstep
  cases hph : s.thread with
  | readVdata =>
    rw [hph] at hstep
    cases hstep
    exact hframe (.refl rfl rfl) rfl rfl rfl rfl rfl rfl rfl (Or.inl rfl) trivial
  | readVersion tmpRun =>
    rw [hph] at hstep
    simp only at hstep
    split at hstep
    · cases hstep
      exact hframe (.malloc (a := a) rfl rfl) rfl rfl rfl rfl rfl rfl rfl (Or.inl rfl)
        (Function.update_self ..)
    · cases hstep
      exact hframe (.refl rfl rfl) rfl rfl rfl rfl rfl rfl rfl (Or.inl rfl) trivial
  | lock tmpRun run =>
    rw [hph] at hstep hpc
    simp only at hstep
    split at hstep
    · exact absurd hstep (by simp)
    · cases hstep
      exact hframe (.refl rfl rfl) rfl rfl rfl rfl rfl rfl rfl (Or.inl rfl) hpc
  | compare tmpRun run =>
    rw [hph] at hstep hpc
    cases hstep
    refine hframe (.refl rfl rfl) rfl rfl rfl rfl rfl rfl rfl (Or.inl rfl) ?_
    simp only
    split
    · exact hpc
    · trivial
  | storeVdata run =>
    rw [hph] at hstep hpc
    cases hstep
    exact hframe ⟨id, Or.inr hpc⟩ rfl rfl rfl rfl rfl rfl rfl (Or.inl rfl) hpc
  | storeVersion =>
    rw [hph] at hstep hpc
    cases hstep
    exact hframe (.refl rfl rfl) rfl rfl rfl rfl rfl rfl rfl (Or.inr ⟨hph, hlt.1, hpc⟩) trivial
  | unlock =>
    rw [hph] at hstep
    cases hstep
    exact hframe (.refl rfl rfl) rfl rfl rfl rfl rfl rfl rfl (Or.inl rfl) trivial
  | done =>
    rw [hph] at hstep
    exact absurd hstep (by simp)

/-- A step of a free. -/
theorem VInv.freeStep (h : VInv s) (hup : s.boot = .up) (hpres : s.present = true)
    (hstep : freeStep s k a = some s') : VInv s' := by
  have hlt := h.currentVersion_lt hup
  have hpc := h.free k
  have hb := h.boot
  unfold BootOk at hb
  rw [hup] at hb
  -- the thread and the other frees do not move
  have hframe : ∀ {s' : VState} (pc : FreePc), VExtends s s' →
      s'.free = Function.update s.free k pc → s'.thread = s.thread →
      s'.boot = s.boot → s'.metaVersion = s.metaVersion → s'.recoveries = s.recoveries →
      s'.currentVersion = s.currentVersion → s'.present = s.present →
      (s'.version = s.version ∨ (s.free k).Inside ∧ s'.version = s.currentVersion ∧
        s'.created s'.vdata = true) → FreeOk s' pc →
      (pc.Inside → s'.held = true ∧ ((s.free k).Inside ∨ s.held = false)) →
      (s.held = true → s'.held = true ∨ (s.free k).Inside ∧ ¬ pc.Inside) → VInv s' := by
    intro s' pc hext hfree hthread hboot hmeta hrec hcur hpresent hver hok hin hheld
    have hself : s'.free k = pc := by rw [hfree, Function.update_self]
    have hother : ∀ {j}, j ≠ k → s'.free j = s.free j := fun hj => by
      rw [hfree, Function.update_of_ne hj]
    -- nobody else is inside when the free gets in or is inside
    have halone : ∀ {j}, j ≠ k → (s.free j).Inside → ¬ ((s.free k).Inside ∨ s.held = false) := by
      rintro j hj hjin (hk | hk)
      · exact hj (h.unique hjin hk)
      · rw [(h.inside hjin).1] at hk
        exact absurd hk (by simp)
    refine h.step_up hup hext hboot hmeta hrec hcur hpresent (hver.imp_right And.right) ?_ (fun j => ?_)
      (fun {j} hj => ?_) fun {j l} hj hl => ?_
    · rw [hthread]
      exact hext.threadOk h.thread
    · by_cases hjk : j = k
      · rw [hjk, hself]
        exact hok
      · rw [hother hjk]
        refine hext.freeOk (h.free j) fun ⟨run, hrun⟩ heq => ?_
        rcases hver with hsame | ⟨hkin, -⟩
        · rw [← hsame, heq, hcur]
        · exact absurd (Or.inl hkin) (halone hjk (by rw [hrun]; trivial))
    · by_cases hjk : j = k
      · rw [hjk, hself] at hj
        exact ⟨(hin hj).1, hpres⟩
      · rw [hother hjk] at hj
        refine ⟨?_, hpres⟩
        rcases hheld (h.inside hj).1 with hyes | ⟨hkin, -⟩
        · exact hyes
        · exact absurd (Or.inl hkin) (halone hjk hj)
    · by_cases hjk : j = k <;> by_cases hlk : l = k
      · rw [hjk, hlk]
      · rw [hjk, hself] at hj
        rw [hother hlk] at hl
        exact absurd (hin hj).2 (halone hlk hl)
      · rw [hlk, hself] at hl
        rw [hother hjk] at hj
        exact absurd (hin hl).2 (halone hjk hj)
      · rw [hother hjk] at hj
        rw [hother hlk] at hl
        exact h.unique hj hl
  unfold NvmMalloc.freeStep at hstep
  cases hph : s.free k with
  | acquire =>
    rw [hph] at hstep
    simp only at hstep
    split at hstep
    · exact absurd hstep (by simp)
    · rename_i hfree
      cases hstep
      exact hframe .readVdata (.refl rfl rfl) rfl rfl rfl rfl rfl rfl rfl (Or.inl rfl) trivial
        (fun _ => ⟨rfl, Or.inr (by simpa using hfree)⟩) fun _ => Or.inl rfl
  | readVdata =>
    have hin : (s.free k).Inside := by rw [hph]; trivial
    rw [hph] at hstep
    cases hstep
    exact hframe (.readVersion s.vdata) (.refl rfl rfl) rfl rfl rfl rfl rfl rfl rfl (Or.inl rfl)
      ⟨hb.2.2 hpres, Or.inl rfl⟩ (fun _ => ⟨(h.inside hin).1, Or.inl hin⟩) fun hheld => Or.inl hheld
  | readVersion run =>
    have hin : (s.free k).Inside := by rw [hph]; trivial
    rw [hph] at hstep hpc
    simp only at hstep
    split at hstep
    · cases hstep
      have hext : VExtends s ((s.malloc a).moveFree k (.lock run a)) := .malloc (a := a) rfl rfl
      exact hframe (.lock run a) hext rfl rfl rfl rfl rfl rfl rfl (Or.inl rfl)
        ⟨Function.update_self .., hext.read hpc.2⟩ (fun _ => ⟨(h.inside hin).1, Or.inl hin⟩)
        fun hheld => Or.inl hheld
    · rename_i hold
      cases hstep
      have hversion := h.version hpres
      exact hframe (.deref run) (.refl rfl rfl) rfl rfl rfl rfl rfl rfl rfl (Or.inl rfl)
        (hpc.1 (by omega)) (fun _ => ⟨(h.inside hin).1, Or.inl hin⟩) fun hheld => Or.inl hheld
  | lock run tmpRun =>
    have hin : (s.free k).Inside := by rw [hph]; trivial
    rw [hph] at hstep hpc
    simp only at hstep
    split at hstep
    · exact absurd hstep (by simp)
    · cases hstep
      exact hframe (.compare run tmpRun) (.refl rfl rfl) rfl rfl rfl rfl rfl rfl rfl (Or.inl rfl)
        hpc (fun _ => ⟨(h.inside hin).1, Or.inl hin⟩) fun hheld => Or.inl hheld
  | compare run tmpRun =>
    have hin : (s.free k).Inside := by rw [hph]; trivial
    rw [hph] at hstep hpc
    cases hstep
    refine hframe (if run = s.vdata then .storeVdata tmpRun else .unlock) (.refl rfl rfl) rfl rfl
      rfl rfl rfl rfl rfl (Or.inl rfl) ?_ (fun _ => ⟨(h.inside hin).1, Or.inl hin⟩)
      fun hheld => Or.inl hheld
    split
    · exact hpc.1
    · rename_i hne
      exact hpc.2.resolve_left hne
  | storeVdata tmpRun =>
    have hin : (s.free k).Inside := by rw [hph]; trivial
    rw [hph] at hstep hpc
    cases hstep
    exact hframe .storeVersion ⟨id, Or.inr hpc⟩ rfl rfl rfl rfl rfl rfl rfl (Or.inl rfl) hpc
      (fun _ => ⟨(h.inside hin).1, Or.inl hin⟩) fun hheld => Or.inl hheld
  | storeVersion =>
    have hin : (s.free k).Inside := by rw [hph]; trivial
    rw [hph] at hstep hpc
    cases hstep
    exact hframe .unlock (.refl rfl rfl) rfl rfl rfl rfl rfl rfl rfl
      (Or.inr ⟨hin, hlt.1, hpc⟩) hpc (fun _ => ⟨(h.inside hin).1, Or.inl hin⟩) fun hheld => Or.inl hheld
  | unlock =>
    have hin : (s.free k).Inside := by rw [hph]; trivial
    rw [hph] at hstep hpc
    cases hstep
    exact hframe .rereadVdata (.refl rfl rfl) rfl rfl rfl rfl rfl rfl rfl (Or.inl rfl) hpc
      (fun _ => ⟨(h.inside hin).1, Or.inl hin⟩) fun hheld => Or.inl hheld
  | rereadVdata =>
    have hin : (s.free k).Inside := by rw [hph]; trivial
    rw [hph] at hstep hpc
    cases hstep
    exact hframe (.deref s.vdata) (.refl rfl rfl) rfl rfl rfl rfl rfl rfl rfl (Or.inl rfl) hpc
      (fun _ => ⟨(h.inside hin).1, Or.inl hin⟩) fun hheld => Or.inl hheld
  | deref run =>
    have hin : (s.free k).Inside := by rw [hph]; trivial
    rw [hph] at hstep
    cases hstep
    exact hframe .done (.refl rfl rfl) rfl rfl rfl rfl rfl rfl rfl (Or.inl rfl) trivial
      (fun hdone => absurd hdone id) fun _ => Or.inr ⟨hin, id⟩
  | done =>
    rw [hph] at hstep
    exact absurd hstep (by simp)

/-- A step of the process while no free is inside. -/
theorem VInv.quietStep (h : VInv s) (hnone : ∀ k, ¬ (s.free k).Inside) (hext : VExtends s s')
    (hfree : s'.free = s.free) (hthread : s'.thread = s.thread) (hrec : s'.recoveries = s.recoveries)
    (hversion : s'.present = true → s'.version < s'.metaVersion) (hboot : BootOk s') : VInv s' := by
  refine ⟨hrec ▸ h.recoveries, hversion, hboot, ?_, fun k => ?_, fun {k} hk => ?_, fun {j k} hj => ?_⟩
  · rw [hthread]
    exact hext.threadOk h.thread
  · rw [hfree]
    refine hext.freeOk (h.free k) fun ⟨run, hrun⟩ => absurd ?_ (hnone k)
    rw [hrun]
    trivial
  · rw [hfree] at hk
    exact absurd hk (hnone k)
  · rw [hfree] at hj
    exact absurd hj (hnone j)

/-- **Every action keeps the invariant** if the recovery thread does not publish between the two reads of
a free. -/
theorem VInv.step (h : VInv s) {act : VAction} (hguard : NoPublishBetweenReads s act)
    (hstep : vStep s act = some s') : VInv s' := by
  have hb := h.boot
  have hrec := h.recoveries
  -- before the process is up no free is inside
  have hnone : s.boot ≠ .up → ∀ k, ¬ (s.free k).Inside := fun hboot k hk => hboot (h.inside hk).2.2
  cases act with
  | restart =>
    simp only [vStep] at hstep
    split at hstep
    · rename_i hlt
      cases hstep
      refine ⟨hlt, h.version, ?_, trivial, fun k => trivial, fun hk => absurd hk id,
        fun hj => absurd hj id⟩
      show s.metaVersion ≤ s.recoveries + 1
      unfold BootOk at hb
      split at hb <;> omega
    · exact absurd hstep (by simp)
  | load =>
    simp only [vStep] at hstep
    split at hstep
    · rename_i hboot
      cases hstep
      unfold BootOk at hb
      rw [hboot] at hb
      exact h.quietStep (hnone (by simp [hboot])) (.refl rfl rfl) rfl rfl rfl h.version ⟨hb, rfl⟩
    · exact absurd hstep (by simp)
  | bump =>
    simp only [vStep] at hstep
    split at hstep
    · rename_i hboot
      cases hstep
      unfold BootOk at hb
      rw [hboot] at hb
      have hmeta : (s.metaVersion + 1) % 2 ^ 64 = s.metaVersion + 1 := Nat.mod_eq_of_lt (by omega)
      refine h.quietStep (hnone (by simp [hboot])) (.refl rfl rfl) rfl rfl rfl (fun hp => ?_) ?_
      · have hv := h.version hp
        simp only [hmeta]
        omega
      · -- no header has the version of this process yet
        refine ⟨?_, ?_, fun hp heq => ?_⟩
        · simp only [hmeta]
          omega
        · simp only [hmeta]
          omega
        · have hv := h.version hp
          simp only at heq
          omega
    · exact absurd hstep (by simp)
  | replay a =>
    simp only [vStep] at hstep
    split at hstep
    · rename_i hboot
      cases hstep
      unfold BootOk at hb
      rw [hboot.1] at hb
      have hcur : s.currentVersion % 2 ^ 32 = s.currentVersion := Nat.mod_eq_of_lt (by omega)
      refine h.quietStep (hnone (by simp [hboot.1])) (.malloc (a := a) rfl rfl) rfl rfl rfl (fun _ => ?_)
        ⟨hb.1, hb.2.1, Function.update_self ..⟩
      show s.currentVersion % 2 ^ 32 < s.metaVersion
      omega
    · exact absurd hstep (by simp)
  | storeVdata =>
    simp only [vStep] at hstep
    split at hstep
    · rename_i run hboot
      cases hstep
      unfold BootOk at hb
      rw [hboot] at hb
      exact h.quietStep (hnone (by simp [hboot])) ⟨id, Or.inr hb.2.2⟩ rfl rfl rfl h.version
        ⟨hb.1, hb.2.1, fun _ _ => hb.2.2⟩
    · exact absurd hstep (by simp)
  | start =>
    simp only [vStep] at hstep
    split at hstep
    · rename_i hboot
      cases hstep
      unfold BootOk at hb
      rw [hboot] at hb
      exact h.quietStep (hnone (by simp [hboot])) (.refl rfl rfl) rfl rfl rfl h.version hb
    · exact absurd hstep (by simp)
  | createRun a =>
    simp only [vStep] at hstep
    split at hstep
    · rename_i hup
      cases hstep
      have hlt := h.currentVersion_lt hup.1
      unfold BootOk at hb
      rw [hup.1] at hb
      refine h.quietStep (fun k hk => ?_) ⟨(VExtends.malloc (a := a) rfl rfl).created, ?_⟩ rfl rfl rfl
        (fun _ => ?_) ?_
      · rw [(h.inside hk).2.1] at hup
        exact absurd hup.2 (by simp)
      · exact Or.inr (Function.update_self ..)
      · show s.currentVersion % 2 ^ 32 < s.metaVersion
        omega
      · unfold BootOk
        simp only [VState.malloc, hup.1]
        exact ⟨hb.1, hb.2.1, fun _ _ => Function.update_self ..⟩
    · exact absurd hstep (by simp)
  | thread a =>
    simp only [vStep] at hstep
    split at hstep
    · rename_i hup
      exact h.threadStep hup.1 hguard hstep
    · exact absurd hstep (by simp)
  | free k a =>
    simp only [vStep] at hstep
    split at hstep
    · rename_i hup
      exact h.freeStep hup.1 hup.2 hstep
    · exact absurd hstep (by simp)

theorem VInv.of_initial (h : s.Initial) : VInv s := by
  obtain ⟨hmeta, hpresent, hboot, hcur, -, hthread, hfree, hrec⟩ := h
  refine ⟨by omega, fun hp => ?_, ?_, ?_, fun k => ?_, fun {k} hk => ?_, fun {j k} hj => ?_⟩
  · rw [hpresent] at hp
    exact absurd hp (by simp)
  · unfold BootOk
    rw [hboot]
    refine ⟨by omega, by omega, fun hp => ?_⟩
    rw [hpresent] at hp
    exact absurd hp (by simp)
  · rw [hthread]
    trivial
  · rw [hfree k]
    trivial
  · rw [hfree k] at hk
    exact absurd hk id
  · rw [hfree j] at hj
    exact absurd hj id

end

/-! ## Whole histories -/

/-- **VHeader pointers are never stale** in every history of processes in which the recovery thread never
stores `version` between a free's read of `vdata` and its read of `version`. -/
theorem no_stale_deref {s : VState} (hs : Runs VState.Initial vStep NoPublishBetweenReads s) :
    NoStaleDeref s := by
  have hinv : VInv s :=
    hs.invariant (fun _ h => .of_initial h) fun _ _ _ h hguard hstep => h.step hguard hstep
  intro k run hderef
  have hok := hinv.free k
  rw [hderef] at hok
  exact hok

/-- The first process, before it has made any run. -/
def firstProcess : VState :=
  ⟨1, false, 0, 0, false, .up, 0, fun _ => false, false, .done, fun _ => .acquire, 0⟩

theorem firstProcess_initial : firstProcess.Initial :=
  ⟨rfl, rfl, rfl, rfl, rfl, rfl, fun _ => rfl, rfl⟩

/-- A run of the first process is recovered by the second one, whose recovery thread publishes its
VHeader before a free reads `vdata`: the free goes through the VHeader of its own process. -/
theorem no_stale_deref_second_process :
    ∃ s, runActions vStep firstProcess ([.createRun 100, .restart, .load, .bump, .start, .free 0 0] ++
        List.replicate 6 (.thread 200) ++ [.free 0 0, .free 0 0]) = some s ∧
      s.recoveries = 1 ∧ s.free 0 = .deref 200 ∧ s.created 200 = true := by
  have h₀ : Runs VState.Initial vStep NoPublishBetweenReads firstProcess := .start firstProcess_initial
  have h₁ := h₀.next (a := VAction.createRun 100) trivial rfl
  have h₂ := h₁.next (a := VAction.restart) trivial rfl
  have h₃ := h₂.next (a := VAction.load) trivial rfl
  have h₄ := h₃.next (a := VAction.bump) trivial rfl
  have h₅ := h₄.next (a := VAction.start) trivial rfl
  have h₆ := h₅.next (a := VAction.free 0 0) trivial rfl
  have h₇ := h₆.next (a := VAction.thread 200) (fun h => by cases h) rfl
  have h₈ := h₇.next (a := VAction.thread 200) (fun h => by cases h) rfl
  have h₉ := h₈.next (a := VAction.thread 200) (fun h => by cases h) rfl
  have h₁₀ := h₉.next (a := VAction.thread 200) (fun h => by cases h) rfl
  have h₁₁ := h₁₀.next (a := VAction.thread 200) (fun h => by cases h) rfl
  -- `version` is stored while the free is about to read `vdata`
  have h₁₂ := h₁₁.next (a := VAction.thread 200) (fun _ k run => by
    show Function.update (fun _ => FreePc.acquire) 0 FreePc.readVdata k ≠ .readVersion run
    by_cases hk : k = 0 <;> simp [hk]) rfl
  have h₁₃ := h₁₂.next (a := VAction.free 0 0) trivial rfl
  have h₁₄ := h₁₃.next (a := VAction.free 0 0) trivial rfl
  exact ⟨_, rfl, rfl, rfl, no_stale_deref h₁₄ 0 200 rfl⟩

/-- A run of the first process is recovered by the second one: a free reads `vdata`, the recovery thread
publishes its VHeader, and the free reads the new `version`. -/
def publishBetweenReads : List VAction :=
  [.createRun 100, .restart, .load, .bump, .start, .free 0 0, .free 0 0] ++
    List.replicate 6 (.thread 200) ++ [.free 0 0]

/-- The free then dereferences the VHeader of the first process. -/
theorem stale_deref_in_second_process :
    ∃ s, Runs VState.Initial vStep (fun _ _ => True) s ∧ ¬ NoStaleDeref s := by
  have hrun : ((runActions vStep firstProcess publishBetweenReads).any fun s =>
      decide (s.free 0 = .deref 100 ∧ s.created 100 = false)) = true := by
    decide +kernel
  obtain ⟨s, hs, htest⟩ := Runs.exists_of_actions (.start firstProcess_initial) hrun
  obtain ⟨hderef, hfresh⟩ := of_decide_eq_true htest
  refine ⟨s, hs, fun hgood => ?_⟩
  have hcreated := hgood 0 100 hderef
  rw [hfresh] at hcreated
  exact absurd hcreated (by simp)

end NvmMalloc
