import Mathlib.Data.Finset.Insert
import NvmMalloc.Lib.Interleaving
import NvmMalloc.Lib.LinkedList
import NvmMalloc.Types

/-!
# The arena of a thread

Reference: `src/nvm_malloc.c` (`nvm_reserve`, `tidmap`, `next_arena`),
`ulib-svn/src/base/hash_chain_prot.h` (`chainhash_get`, `chainhash_set`).

At the head of `nvm_reserve` a thread looks up its id in `tidmap`; if it is not there, it draws the next
arena in turn and enters it.  No lock is taken.  The steps here are the reads and writes of memory
that the threads share, so that any number of threads may be anywhere in these lines.

`served_own_arena`: the loop of the lookup always ends, and a thread is only ever served from an arena
that it has drawn itself.  It may draw more than one: a thread that reads the head of a chain and
stores its entry there later drops an entry that came in between.  `served_same_arena` excludes
this, and then every thread draws once and keeps its arena.
-/

namespace NvmMalloc

open Interleaving

/-! ## The hash table -/

/-- `chainhash_map_entry` -/
structure ChainEntry (κ β : Type) where
  next : Option ℕ
  key : κ
  val : β

/-- `chainhash_t`, with the memory of its entries, of which `live` are allocated. -/
structure ChainHash (κ β : Type) where
  mask : ℕ
  tbl : ℕ → Option ℕ
  entry : ℕ → ChainEntry κ β
  live : Finset ℕ

/-- The mask that `chainhash_init` computes for at least `min` chains. -/
def ChainHash.chainMask (min : ℕ) : ℕ :=
  let min := (min + 2 ^ 64 - 1) % 2 ^ 64
  let min := min ||| min >>> 1
  let min := min ||| min >>> 2
  let min := min ||| min >>> 4
  let min := min ||| min >>> 8
  let min := min ||| min >>> 16
  min ||| min >>> 32

/-- `chainhash_set` for a key with the hash `h`, for which `malloc` returns `x`, and the store of the
value. -/
def ChainHash.chainhashSet {κ β : Type} (c : ChainHash κ β) (x h : ℕ) (key : κ) (val : β) :
    ChainHash κ β :=
  let index := h &&& c.mask
  { c with
    entry := Function.update c.entry x ⟨c.tbl index, key, val⟩
    tbl := Function.update c.tbl index (some x)
    live := insert x c.live }

/-! ## The threads -/

/-- Where a thread is. -/
inductive ArenaPc where
  /-- Outside `nvm_reserve`. -/
  | idle
  /-- In the loop of `chainhash_get`, at the entry `e`. -/
  | walk (e : Option ℕ)
  /-- Its id was not found. -/
  | draw
  /-- About to make the entry for the arena `a`. -/
  | enter (a : ℕ)
  /-- About to put the entry `x` into the table. -/
  | publish (x a : ℕ)
  /-- About to store the value of the entry. -/
  | fill (x a : ℕ)
  /-- In `arena_allocate (a, …)`. -/
  | served (a : ℕ)
deriving DecidableEq

/-- The arena that the thread has. -/
def ArenaPc.arena : ArenaPc → Option ℕ
  | .enter a | .publish _ a | .fill _ a | .served a => some a
  | _ => none

/-- The entry that the thread has made and not yet filled. -/
def ArenaPc.entry : ArenaPc → Option ℕ
  | .publish x _ | .fill x _ => some x
  | _ => none

/-- What the threads share, where they are, and an account of what they have drawn from `next_arena`. -/
structure ArenaMap where
  tidmap : ChainHash ℕ ℕ
  nextArena : ℕ
  pc : ℕ → ArenaPc
  drawn : ℕ → List ℕ

/-- A step of the thread `i`.  If it calls `malloc`, the result is `x`, with `junk` where the value
goes. -/
structure ArenaAction where
  i : ℕ
  x : ℕ
  junk : ℕ

namespace ArenaMap

/-- The thread `i` moves on. -/
def move (s : ArenaMap) (i : ℕ) (q : ArenaPc) : ArenaMap := { s with pc := Function.update s.pc i q }

/-- The chain of a thread: the hash of an id is the id. -/
def chain (s : ArenaMap) (i : ℕ) : ℕ := i &&& s.tidmap.mask

/-- `chainhash_set` up to the store to the table. -/
def newEntry (s : ArenaMap) (x i junk : ℕ) : ChainHash ℕ ℕ :=
  { s.tidmap with
    entry := Function.update s.tidmap.entry x ⟨s.tidmap.tbl (s.chain i), i, junk⟩
    live := insert x s.tidmap.live }

/-- One step of one thread. -/
def step (s : ArenaMap) (act : ArenaAction) : Option ArenaMap :=
  match s.pc act.i with
  | .idle => some (s.move act.i (.walk (s.tidmap.tbl (s.chain act.i))))
  | .walk none => some (s.move act.i .draw)
  | .walk (some e) =>
    -- no other thread writes to an entry in the table, so its fields are read in one step
    if (s.tidmap.entry e).key = act.i then
      some (s.move act.i (.served (s.tidmap.entry e).val))
    else
      some (s.move act.i (.walk (s.tidmap.entry e).next))
  | .draw =>
    some { s.move act.i (.enter (s.nextArena % initialArenas)) with
      nextArena := (s.nextArena + 1) % 2 ^ 32
      drawn := Function.update s.drawn act.i (s.nextArena :: s.drawn act.i) }
  | .enter a =>
    if act.x ∈ s.tidmap.live then none
    else some { s.move act.i (.publish act.x a) with tidmap := s.newEntry act.x act.i act.junk }
  | .publish x a =>
    some { s.move act.i (.fill x a) with
      tidmap := { s.tidmap with tbl := Function.update s.tidmap.tbl (s.chain act.i) (some x) } }
  | .fill x a =>
    some { s.move act.i (.served a) with
      tidmap := { s.tidmap with
        entry := Function.update s.tidmap.entry x { s.tidmap.entry x with val := a } } }
  | .served _ => some (s.move act.i .idle)

/-- After `nvm_initialize`: an empty map, and no thread in `nvm_reserve`. -/
def Init (s : ArenaMap) : Prop :=
  s.tidmap.mask = ChainHash.chainMask initialArenas ∧ s.tidmap.tbl = (fun _ => none) ∧
    s.tidmap.live = ∅ ∧ s.pc = (fun _ => .idle) ∧ s.drawn = fun _ => []

/-- Undisturbed, the three steps of an entry are `chainhash_set` and the store of the value. -/
theorem enter_alone {s : ArenaMap} {i x junk a : ℕ} (hpc : s.pc i = .enter a) (hx : x ∉ s.tidmap.live) :
    ((s.step ⟨i, x, junk⟩).bind fun s => (s.step ⟨i, x, junk⟩).bind fun s => s.step ⟨i, x, junk⟩) =
      some { s.move i (.served a) with tidmap := s.tidmap.chainhashSet x i i a } := by
  simp [step, hpc, hx, move, newEntry, ChainHash.chainhashSet, chain]

variable {s s' : ArenaMap} {c c' : ChainHash ℕ ℕ} {i j x a b : ℕ} {e : Option ℕ} {q : ArenaPc}

theorem move_self : (s.move i q).pc i = q := Function.update_self ..

theorem move_of_ne (hj : j ≠ i) : (s.move i q).pc j = s.pc j := Function.update_of_ne hj ..

/-! ## What holds in any order of steps -/

/-- The entries of `c` are still there, with their keys and their places in the chains. -/
structure Keeps (c c' : ChainHash ℕ ℕ) : Prop where
  mask : c'.mask = c.mask
  live : c.live ⊆ c'.live
  next : ∀ y ∈ c.live, (c'.entry y).next = (c.entry y).next
  key : ∀ y ∈ c.live, (c'.entry y).key = (c.entry y).key

theorem Keeps.refl (c : ChainHash ℕ ℕ) : Keeps c c :=
  ⟨rfl, Finset.Subset.refl _, fun _ _ => rfl, fun _ _ => rfl⟩

theorem keeps_newEntry {junk : ℕ} (hx : x ∉ s.tidmap.live) : Keeps s.tidmap (s.newEntry x i junk) := by
  have hold : ∀ y ∈ s.tidmap.live, (s.newEntry x i junk).entry y = s.tidmap.entry y := fun y hy =>
    Function.update_of_ne (show y ≠ x from fun heq => hx (heq ▸ hy)) _ _
  exact ⟨rfl, Finset.subset_insert x _, fun y hy => by rw [hold y hy], fun y hy => by rw [hold y hy]⟩

/-- The table with the value `a` in the entry `x`. -/
def fillEntry (c : ChainHash ℕ ℕ) (x a : ℕ) : ChainHash ℕ ℕ :=
  { c with entry := Function.update c.entry x { c.entry x with val := a } }

theorem keeps_fillEntry : Keeps c (fillEntry c x a) := by
  refine ⟨rfl, Finset.Subset.refl _, fun y _ => ?_, fun y _ => ?_⟩ <;>
    by_cases hy : y = x <;> simp [fillEntry, hy]

/-- From `p` on, the chain `b` ends; its entries are allocated and belong to it. -/
def Ends (c : ChainHash ℕ ℕ) (b : ℕ) (p : Option ℕ) : Prop :=
  ∃ l, Linked (fun x => (c.entry x).next) p l ∧ ∀ y ∈ l, y ∈ c.live ∧ (c.entry y).key &&& c.mask = b

theorem Ends.congr (h : Ends c b e) (hkeeps : Keeps c c') : Ends c' b e := by
  obtain ⟨l, hlinked, hl⟩ := h
  refine ⟨l, hlinked.congr fun y hy => hkeeps.next y (hl y hy).1, fun y hy => ?_⟩
  obtain ⟨hy', hkey⟩ := hl y hy
  exact ⟨hkeeps.live hy', by rw [hkeeps.key y hy', hkeeps.mask, hkey]⟩

theorem Ends.next {e : ℕ} (h : Ends c b (some e)) : Ends c b (c.entry e).next := by
  obtain ⟨l, hlinked, hl⟩ := h
  cases l with
  | nil => cases hlinked
  | cons y l =>
    obtain rfl : e = y := Option.some.inj hlinked.1
    exact ⟨l, hlinked.2, fun y hy => hl y (List.mem_cons_of_mem e hy)⟩

/-- The chains end, wherever a thread stands in them.  An entry is in the making, by the thread with its
key, or its value is an arena which that thread has drawn. -/
structure Safe (s : ArenaMap) : Prop where
  chains : ∀ b, Ends s.tidmap b (s.tidmap.tbl b)
  walk : ∀ {i e}, s.pc i = .walk e → Ends s.tidmap (s.chain i) e
  made : ∀ {i x}, (s.pc i).entry = some x → x ∈ s.tidmap.live ∧ (s.tidmap.entry x).key = i ∧
    Ends s.tidmap (s.chain i) (s.tidmap.entry x).next
  value : ∀ x ∈ s.tidmap.live, (∃ i, (s.pc i).entry = some x) ∨
    ∃ n ∈ s.drawn (s.tidmap.entry x).key, (s.tidmap.entry x).val = n % initialArenas
  arena : ∀ {i a}, (s.pc i).arena = some a → ∃ n ∈ s.drawn i, a = n % initialArenas

/-- The thread `i` moves on and leaves the table `c`.  Every entry is the one that `i` makes now, or as
before and not one that `i` was making, or it is complete. -/
theorem Safe.change (h : s.Safe) (hkeeps : Keeps s.tidmap c) (hchains : ∀ b, Ends c b (c.tbl b))
    (hwalk : ∀ e, q = .walk e → Ends c (s.chain i) e)
    (hmade : ∀ x, q.entry = some x →
      x ∈ c.live ∧ (c.entry x).key = i ∧ Ends c (s.chain i) (c.entry x).next)
    (hvalue : ∀ x ∈ c.live, q.entry = some x ∨
      (x ∈ s.tidmap.live ∧ c.entry x = s.tidmap.entry x ∧ (s.pc i).entry ≠ some x) ∨
      ∃ n ∈ s.drawn (c.entry x).key, (c.entry x).val = n % initialArenas)
    (harena : ∀ a, q.arena = some a → ∃ n ∈ s.drawn i, a = n % initialArenas) :
    ({ s.move i q with tidmap := c } : ArenaMap).Safe := by
  have hchain : ∀ j, ({ s.move i q with tidmap := c } : ArenaMap).chain j = s.chain j := fun j => by
    rw [chain, chain, hkeeps.mask]
  refine ⟨hchains, fun {j e} hpc => ?_, fun {j x} hx => ?_, fun x hx => ?_, fun {j a} ha => ?_⟩
  · rw [hchain]
    by_cases hj : j = i
    · rw [hj] at hpc ⊢
      exact hwalk e (move_self.symm.trans hpc)
    · exact (h.walk ((move_of_ne hj).symm.trans hpc)).congr hkeeps
  · rw [hchain]
    by_cases hj : j = i
    · rw [hj] at hx ⊢
      exact hmade x (by simpa only [move_self] using hx)
    · obtain ⟨hlive, hkey, hnext⟩ := h.made (i := j) (by rw [← move_of_ne hj]; exact hx)
      refine ⟨hkeeps.live hlive, (hkeeps.key x hlive).trans hkey, ?_⟩
      show Ends c _ (c.entry x).next
      rw [hkeeps.next x hlive]
      exact hnext.congr hkeeps
  · rcases hvalue x hx with hq | ⟨hlive, heq, hne⟩ | hval
    · exact .inl ⟨i, by simpa only [move_self] using hq⟩
    · show _ ∨ ∃ n ∈ s.drawn (c.entry x).key, (c.entry x).val = _
      rw [heq]
      refine (h.value x hlive).imp_left ?_
      rintro ⟨j, hj⟩
      have hji : j ≠ i := fun hji => hne (hji ▸ hj)
      exact ⟨j, by simpa only [move_of_ne hji] using hj⟩
    · exact .inr hval
  · by_cases hj : j = i
    · rw [hj] at ha ⊢
      exact harena a (by simpa only [move_self] using ha)
    · exact h.arena (by simpa only [move_of_ne hj] using ha)

/-- A thread moves, with the entry it has. -/
theorem Safe.move (h : s.Safe) (hwalk : ∀ e, q = .walk e → Ends s.tidmap (s.chain i) e)
    (hentry : q.entry = (s.pc i).entry)
    (harena : ∀ a, q.arena = some a → ∃ n ∈ s.drawn i, a = n % initialArenas) : (s.move i q).Safe := by
  refine h.change (.refl _) h.chains hwalk (fun x hx => h.made (hentry ▸ hx)) (fun x hx => ?_) harena
  rw [hentry]
  by_cases hne : (s.pc i).entry = some x
  · exact .inl hne
  · exact .inr (.inl ⟨hx, rfl, hne⟩)

/-- More is drawn. -/
theorem Safe.draw (h : s.Safe) {d : ℕ → List ℕ} (hd : ∀ j, s.drawn j ⊆ d j) (k : ℕ) :
    ({ s with drawn := d, nextArena := k } : ArenaMap).Safe where
  chains := h.chains
  walk := h.walk
  made := h.made
  value x hx := (h.value x hx).imp_right fun ⟨n, hn, hval⟩ => ⟨n, hd _ hn, hval⟩
  arena ha := by
    obtain ⟨n, hn, rfl⟩ := h.arena ha
    exact ⟨n, hd _ hn, rfl⟩

/-- A new entry is made. -/
theorem Safe.enter (h : s.Safe) {junk : ℕ} (hpc : s.pc i = .enter a) (hx : x ∉ s.tidmap.live) :
    ({ s.move i (.publish x a) with tidmap := s.newEntry x i junk } : ArenaMap).Safe := by
  have hkeeps : Keeps s.tidmap (s.newEntry x i junk) := keeps_newEntry hx
  have hnew : (s.newEntry x i junk).entry x = ⟨s.tidmap.tbl (s.chain i), i, junk⟩ :=
    Function.update_self ..
  refine h.change hkeeps (fun b => (h.chains b).congr hkeeps) (by simp) (fun y hy => ?_) (fun y hy => ?_)
    fun a' ha => h.arena (by rw [hpc]; exact ha)
  · obtain rfl : x = y := Option.some.inj hy
    rw [hnew]
    exact ⟨Finset.mem_insert_self x _, rfl, (h.chains _).congr hkeeps⟩
  · rcases Finset.mem_insert.mp hy with rfl | hlive
    · exact .inl rfl
    · have hne : y ≠ x := fun heq => hx (heq ▸ hlive)
      exact .inr (.inl ⟨hlive, Function.update_of_ne hne .., by simp [hpc, ArenaPc.entry]⟩)

/-- The entry is put into the table. -/
theorem Safe.publish (h : s.Safe) (hpc : s.pc i = .publish x a) :
    ({ s.move i (.fill x a) with
      tidmap := { s.tidmap with tbl := Function.update s.tidmap.tbl (s.chain i) (some x) } } :
        ArenaMap).Safe := by
  have hmade := h.made (i := i) (x := x) (by rw [hpc]; rfl)
  have hmove : (s.move i (.fill x a)).Safe :=
    h.move (by simp) (by rw [hpc]; rfl) fun a' ha => h.arena (by rw [hpc]; exact ha)
  refine ⟨fun b => ?_, hmove.walk, hmove.made, hmove.value, hmove.arena⟩
  show Ends s.tidmap b (Function.update s.tidmap.tbl (s.chain i) (some x) b)
  by_cases hb : b = s.chain i
  · obtain ⟨hlive, hkey, l, hlinked, hl⟩ := hmade
    rw [hb, Function.update_self]
    refine ⟨x :: l, ⟨rfl, hlinked⟩, List.forall_mem_cons.mpr ⟨⟨hlive, ?_⟩, hl⟩⟩
    rw [hkey]
    rfl
  · rw [Function.update_of_ne hb]
    exact h.chains b

/-- The value is stored. -/
theorem Safe.fill (h : s.Safe) (hpc : s.pc i = .fill x a) :
    ({ s.move i (.served a) with tidmap := fillEntry s.tidmap x a } : ArenaMap).Safe := by
  obtain ⟨hlive, hkey, -⟩ := h.made (i := i) (x := x) (by rw [hpc]; rfl)
  have hdrawn : ∃ n ∈ s.drawn i, a = n % initialArenas := h.arena (by rw [hpc]; rfl)
  refine h.change keeps_fillEntry (fun b => (h.chains b).congr keeps_fillEntry) (by simp)
    (by simp [ArenaPc.entry]) (fun y hy => ?_) (by simpa [ArenaPc.arena] using hdrawn)
  by_cases hyx : y = x
  · rw [hyx, keeps_fillEntry.key x hlive, hkey]
    exact .inr (.inr (by simpa [fillEntry] using hdrawn))
  · exact .inr (.inl ⟨hy, Function.update_of_ne hyx .., by simp [hpc, ArenaPc.entry, Ne.symm hyx]⟩)

/-- The entry in which a thread finds its id is complete. -/
theorem Safe.found (h : s.Safe) {e : ℕ} (hpc : s.pc i = .walk (some e))
    (hkey : (s.tidmap.entry e).key = i) :
    ∃ n ∈ s.drawn i, (s.tidmap.entry e).val = n % initialArenas := by
  obtain ⟨l, hlinked, hl⟩ := h.walk hpc
  have hlive : e ∈ s.tidmap.live := by
    cases l with
    | nil => cases hlinked
    | cons y l =>
      obtain rfl : e = y := Option.some.inj hlinked.1
      exact (hl e List.mem_cons_self).1
  rcases h.value e hlive with ⟨j, hj⟩ | hvalue
  · -- only the thread itself makes entries with its id, and it is in the loop
    obtain rfl : i = j := hkey.symm.trans (h.made hj).2.1
    rw [hpc] at hj
    cases hj
  · exact hkey ▸ hvalue

theorem Safe.step {act : ArenaAction} (h : s.Safe) (hstep : s.step act = some s') : s'.Safe := by
  unfold ArenaMap.step at hstep
  cases hpc : s.pc act.i with
  | idle =>
    rw [hpc] at hstep
    cases hstep
    refine h.move (fun e he => ?_) (by rw [hpc]; rfl) (by simp [ArenaPc.arena])
    obtain rfl := ArenaPc.walk.inj he
    exact h.chains _
  | walk e =>
    rw [hpc] at hstep
    cases e with
    | none =>
      cases hstep
      exact h.move (by simp) (by rw [hpc]; rfl) (by simp [ArenaPc.arena])
    | some e =>
      simp only at hstep
      split at hstep
      case isTrue hkey =>
        cases hstep
        refine h.move (by simp) (by rw [hpc]; rfl) fun a ha => ?_
        cases ha
        exact h.found hpc hkey
      case isFalse =>
        cases hstep
        refine h.move (fun e' he => ?_) (by rw [hpc]; rfl) (by simp [ArenaPc.arena])
        obtain rfl := ArenaPc.walk.inj he
        exact (h.walk hpc).next
  | draw =>
    rw [hpc] at hstep
    cases hstep
    have hdraw := h.draw (d := Function.update s.drawn act.i (s.nextArena :: s.drawn act.i))
      (fun j => by
        by_cases hj : j = act.i
        · rw [hj, Function.update_self]
          exact List.subset_cons_self _ _
        · rw [Function.update_of_ne hj]
          exact List.Subset.refl _) ((s.nextArena + 1) % 2 ^ 32)
    refine hdraw.move (i := act.i) (q := .enter (s.nextArena % initialArenas)) (by simp)
      (by show _ = (s.pc act.i).entry; rw [hpc]; rfl) fun a ha => ⟨s.nextArena, ?_, ?_⟩
    · show _ ∈ Function.update s.drawn act.i _ act.i
      rw [Function.update_self]
      exact List.mem_cons_self
    · exact (Option.some.inj ha).symm
  | enter a =>
    rw [hpc] at hstep
    simp only at hstep
    split at hstep
    case isTrue => cases hstep
    case isFalse hx =>
      cases hstep
      exact h.enter hpc hx
  | publish x a =>
    rw [hpc] at hstep
    cases hstep
    exact h.publish hpc
  | fill x a =>
    rw [hpc] at hstep
    cases hstep
    exact h.fill hpc
  | served a =>
    rw [hpc] at hstep
    cases hstep
    exact h.move (by simp) (by rw [hpc]; rfl) (by simp [ArenaPc.arena])

theorem Init.safe (h : s.Init) : s.Safe := by
  obtain ⟨-, htbl, hlive, hpc, -⟩ := h
  refine ⟨fun b => ⟨[], congrFun htbl b, by simp⟩, fun {i e} hi => ?_, fun {i x} hi => ?_, ?_,
    fun {i a} hi => ?_⟩
  · rw [hpc] at hi
    cases hi
  · rw [hpc] at hi
    cases hi
  · rw [hlive]
    simp
  · rw [hpc] at hi
    cases hi

end ArenaMap

/-- **A thread is served from an arena that it has drawn.**  In any order of steps the loop of the lookup
has finitely many entries before it, all of them allocated, and the arena that a thread gets is one of
those it has drawn, never the value of another thread or of an entry that is not filled yet. -/
theorem served_own_arena {s : ArenaMap} (hs : Runs ArenaMap.Init ArenaMap.step (fun _ _ => True) s)
    (i : ℕ) :
    (∀ e, s.pc i = .walk e → ∃ l, Linked (fun x => (s.tidmap.entry x).next) e l ∧
      ∀ y ∈ l, y ∈ s.tidmap.live) ∧
    ∀ a, s.pc i = .served a → a < initialArenas ∧ ∃ n ∈ s.drawn i, a = n % initialArenas := by
  have hsafe : s.Safe := hs.invariant (fun _ h => h.safe) fun _ _ _ h _ hstep => h.step hstep
  refine ⟨fun e he => ?_, fun a ha => ?_⟩
  · obtain ⟨l, hlinked, hl⟩ := hsafe.walk he
    exact ⟨l, hlinked, fun y hy => (hl y hy).1⟩
  · obtain ⟨n, hn, rfl⟩ := hsafe.arena (i := i) (a := a) (by rw [ha]; rfl)
    exact ⟨Nat.mod_lt _ (by decide), n, hn, rfl⟩

/-- The map before the first call. -/
def emptyTidmap : ArenaMap :=
  ⟨⟨31, fun _ => none, fun _ => ⟨none, 0, 77⟩, ∅⟩, 0, fun _ => .idle, fun _ => []⟩

/-- The threads 33 and 65, whose ids have the same chain, make their entries at the same time: each reads
the empty head of the chain, and the second store drops the entry of the first.  Then 33 is served,
and comes again. -/
def crossingEntries : List ArenaAction :=
  List.replicate 4 ⟨33, 100, 77⟩ ++ List.replicate 4 ⟨65, 200, 77⟩ ++
    [⟨33, 0, 0⟩, ⟨65, 0, 0⟩] ++ List.replicate 9 ⟨33, 300, 77⟩

/-- Both arenas that thread 33 was served from were drawn by itself. -/
theorem served_own_arena_crossing : ∃ s : ArenaMap,
    s.drawn 33 = [2, 0] ∧ s.pc 33 = .served 2 ∧ ∃ n ∈ s.drawn 33, 2 = n % initialArenas := by
  have hstart : Runs ArenaMap.Init ArenaMap.step (fun _ _ => True) emptyTidmap :=
    .start ⟨rfl, rfl, rfl, rfl, rfl⟩
  have hany : (runActions ArenaMap.step emptyTidmap crossingEntries).any
      (fun s => s.drawn 33 = [2, 0] ∧ s.pc 33 = .served 2) = true := by decide +kernel
  obtain ⟨s, hs, htest⟩ := hstart.exists_of_actions hany
  obtain ⟨hdrawn, hserved⟩ := of_decide_eq_true htest
  exact ⟨s, hdrawn, hserved, ((served_own_arena hs 33).2 2 hserved).2⟩

namespace ArenaMap

variable {s s' : ArenaMap} {c c' : ChainHash ℕ ℕ} {i j x a b : ℕ} {e : Option ℕ} {q : ArenaPc}

/-! ## Entries that do not cross -/

/-- No other thread is about to put an entry into the chain in which the thread makes its own. -/
def EntersAlone (s : ArenaMap) (act : ArenaAction) : Prop :=
  ∀ a, s.pc act.i = .enter a → ∀ j x b, s.pc j = .publish x b → s.chain j ≠ s.chain act.i

/-- Following the chain from `e` leads to an entry of the thread `i`. -/
def Reaches (c : ChainHash ℕ ℕ) (i : ℕ) (e : Option ℕ) : Prop :=
  ∃ l x, Linked (fun x => (c.entry x).next) e l ∧ x ∈ l ∧ (c.entry x).key = i

/-- The thread has drawn, but its entry is not in the table yet. -/
def Waiting (q : ArenaPc) : Prop := (∃ a, q = .enter a) ∨ ∃ x a, q = .publish x a

/-- The thread `i`, at `q`, finds its entry if it has drawn. -/
def Finds (c : ChainHash ℕ ℕ) (b i : ℕ) (q : ArenaPc) : Prop :=
  Waiting q ∨ Reaches c i (c.tbl b) ∧ q ≠ .draw ∧ ∀ e, q = .walk e → Reaches c i e

/-- Every thread draws once, and finds its entry from then on. -/
structure Kept (s : ArenaMap) : Prop extends Safe s where
  head : ∀ {i x a}, s.pc i = .publish x a → (s.tidmap.entry x).next = s.tidmap.tbl (s.chain i)
  single : ∀ {i j x y a b}, s.pc i = .publish x a → s.pc j = .publish y b → s.chain i = s.chain j → i = j
  once : ∀ {i n}, n ∈ s.drawn i → s.drawn i = [n] ∧ Finds s.tidmap (s.chain i) i (s.pc i)

theorem Reaches.congr (h : Reaches c i e) (hends : Ends c b e) (hkeeps : Keeps c c') :
    Reaches c' i e := by
  obtain ⟨l, x, hlinked, hx, hkey⟩ := h
  obtain ⟨l', hlinked', hl'⟩ := hends
  obtain rfl := hlinked.unique hlinked'
  refine ⟨l, x, hlinked.congr fun y hy => hkeeps.next y (hl' y hy).1, hx, ?_⟩
  rw [hkeeps.key x (hl' x hx).1, hkey]

/-- The loop goes past the entry of another thread. -/
theorem Reaches.next {e : ℕ} (h : Reaches c i (some e)) (hkey : (c.entry e).key ≠ i) :
    Reaches c i (c.entry e).next := by
  obtain ⟨l, x, hlinked, hx, hxi⟩ := h
  cases l with
  | nil => cases hx
  | cons y l =>
    obtain rfl : e = y := Option.some.inj hlinked.1
    rcases List.mem_cons.mp hx with rfl | hx
    · exact absurd hxi hkey
    · exact ⟨l, x, hlinked.2, hx, hxi⟩

theorem not_reaches_none : ¬ Reaches c i none := by
  rintro ⟨l, x, hlinked, hx, -⟩
  cases l with
  | nil => cases hx
  | cons y l => cases hlinked.1

/-- A thread that is not waiting for its entry finds it. -/
theorem Kept.settled (h : s.Kept) {n : ℕ} (hn : n ∈ s.drawn i) (hq : ¬ Waiting (s.pc i)) :
    Reaches s.tidmap i (s.tidmap.tbl (s.chain i)) ∧ s.pc i ≠ .draw ∧
      ∀ e, s.pc i = .walk e → Reaches s.tidmap i e :=
  (h.once hn).2.resolve_left hq

/-- The thread `i` moves on and leaves the table `c`, in which the others still find their entries. -/
theorem Kept.change (h : s.Kept) {k : ℕ} {d : ℕ → List ℕ}
    (hsafe : ({ s.move i q with tidmap := c, nextArena := k, drawn := d } : ArenaMap).Safe)
    (hkeeps : Keeps s.tidmap c) (hdrawn : ∀ j, j ≠ i → d j = s.drawn j)
    (htable : ∀ j, j ≠ i → Reaches s.tidmap j (s.tidmap.tbl (s.chain j)) →
      Reaches c j (c.tbl (s.chain j)))
    (hhead : ∀ j y b, j ≠ i → s.pc j = .publish y b → c.tbl (s.chain j) = s.tidmap.tbl (s.chain j))
    (hpublish : ∀ y b, q = .publish y b → (c.entry y).next = c.tbl (s.chain i) ∧
      ∀ j z b', s.pc j = .publish z b' → s.chain j ≠ s.chain i)
    (honce : ∀ n, n ∈ d i → d i = [n] ∧ Finds c (s.chain i) i q) :
    ({ s.move i q with tidmap := c, nextArena := k, drawn := d } : ArenaMap).Kept := by
  have hchain : ∀ j,
      ({ s.move i q with tidmap := c, nextArena := k, drawn := d } : ArenaMap).chain j = s.chain j :=
    fun j => by rw [chain, chain, hkeeps.mask]
  have hold : ∀ {j y b}, j ≠ i → (s.move i q).pc j = .publish y b → s.pc j = .publish y b :=
    fun hj hpc => (move_of_ne hj).symm.trans hpc
  have hnew : ∀ {j y b}, j = i → (s.move i q).pc j = .publish y b → q = .publish y b := fun hj hpc =>
    move_self.symm.trans (hj ▸ hpc)
  refine ⟨hsafe, fun {j y b} hpc => ?_, fun {j k y z b b'} hpc hpc' heq => ?_, fun {j n} hn => ?_⟩
  · rw [hchain]
    by_cases hj : j = i
    · exact hj ▸ (hpublish y b (hnew hj hpc)).1
    · have hpc' := hold hj hpc
      show (c.entry y).next = c.tbl (s.chain j)
      rw [hkeeps.next y (h.made (i := j) (by rw [hpc']; rfl)).1, h.head hpc', hhead j y b hj hpc']
  · rw [hchain, hchain] at heq
    by_cases hj : j = i <;> by_cases hk : k = i
    · exact hj.trans hk.symm
    · exact absurd (hj ▸ heq.symm) ((hpublish y b (hnew hj hpc)).2 k z b' (hold hk hpc'))
    · exact absurd (hk ▸ heq) ((hpublish z b' (hnew hk hpc')).2 j y b (hold hj hpc))
    · exact h.single (hold hj hpc) (hold hk hpc') heq
  · rw [hchain]
    show d j = [n] ∧ Finds c (s.chain j) j ((s.move i q).pc j)
    by_cases hj : j = i
    · rw [hj, move_self]
      exact honce n (hj ▸ hn)
    · have hn' : n ∈ s.drawn j := hdrawn j hj ▸ hn
      rw [move_of_ne hj, hdrawn j hj]
      refine (h.once hn').imp_right fun hfinds => hfinds.imp_right fun ⟨hreaches, hdraw, hwalk⟩ => ?_
      exact ⟨htable j hj hreaches, hdraw, fun e he => (hwalk e he).congr (h.walk he) hkeeps⟩

/-- A thread moves and leaves the map as it is. -/
theorem Kept.move (h : s.Kept) (hsafe : (s.move i q).Safe) (hq : ∀ x a, q ≠ .publish x a)
    (honce : ∀ n, n ∈ s.drawn i → Finds s.tidmap (s.chain i) i q) : (s.move i q).Kept :=
  h.change hsafe (.refl _) (fun _ _ => rfl) (fun _ _ hreaches => hreaches) (fun _ _ _ _ _ => rfl)
    (fun y b hpc => absurd hpc (hq y b)) fun n hn => ⟨(h.once hn).1, honce n hn⟩

/-- A thread without an entry draws, for the first time. -/
theorem Kept.draw (h : s.Kept) {k : ℕ} (hpc : s.pc i = .draw)
    (hsafe : ({ s.move i (.enter a) with
      nextArena := k
      drawn := Function.update s.drawn i (s.nextArena :: s.drawn i) } : ArenaMap).Safe) :
    ({ s.move i (.enter a) with
      nextArena := k
      drawn := Function.update s.drawn i (s.nextArena :: s.drawn i) } : ArenaMap).Kept := by
  have hfirst : s.drawn i = [] := by
    refine List.eq_nil_iff_forall_not_mem.mpr fun n hn => ?_
    exact (h.settled hn (by simp [Waiting, hpc])).2.1 hpc
  refine h.change hsafe (.refl _) (fun j hj => Function.update_of_ne hj ..)
    (fun _ _ hreaches => hreaches)
    (fun _ _ _ _ _ => rfl) (by simp) fun n hn => ⟨?_, .inl (.inl ⟨a, rfl⟩)⟩
  simp only [Function.update_self, hfirst, List.mem_singleton] at hn ⊢
  rw [hn]

/-- A new entry is made, while no other is about to go into the chain. -/
theorem Kept.enter (h : s.Kept) {junk : ℕ} (hpc : s.pc i = .enter a) (hx : x ∉ s.tidmap.live)
    (halone : ∀ j y b, s.pc j = .publish y b → s.chain j ≠ s.chain i) :
    ({ s.move i (.publish x a) with tidmap := s.newEntry x i junk } : ArenaMap).Kept := by
  have hkeeps : Keeps s.tidmap (s.newEntry x i junk) := keeps_newEntry hx
  refine h.change (h.toSafe.enter hpc hx) hkeeps (fun _ _ => rfl)
    (fun j _ hreaches => hreaches.congr (h.chains _) hkeeps) (fun _ _ _ _ _ => rfl)
    (fun y b hy => ⟨?_, halone⟩) fun n hn => ⟨(h.once hn).1, .inl (.inr ⟨x, a, rfl⟩)⟩
  obtain ⟨rfl, -⟩ := ArenaPc.publish.inj hy
  simp [newEntry]

/-- The entry is put in front of the chain it was made for. -/
theorem Kept.publish (h : s.Kept) (hpc : s.pc i = .publish x a) :
    ({ s.move i (.fill x a) with
      tidmap := { s.tidmap with tbl := Function.update s.tidmap.tbl (s.chain i) (some x) } } :
        ArenaMap).Kept := by
  obtain ⟨-, hkey, l, hlinked, -⟩ := h.made (i := i) (x := x) (by rw [hpc]; rfl)
  refine h.change (h.toSafe.publish hpc) ⟨rfl, Finset.Subset.refl _, fun _ _ => rfl, fun _ _ => rfl⟩
    (fun _ _ => rfl) (fun j _ hreaches => ?_) (fun j y b hj hpc' => ?_) (by simp)
    fun n hn => ⟨(h.once hn).1, .inr ⟨?_, by simp, by simp⟩⟩
  · show Reaches s.tidmap j (Function.update s.tidmap.tbl (s.chain i) (some x) (s.chain j))
    by_cases hchain : s.chain j = s.chain i
    · -- the entry was made when the head of the chain was the same
      rw [hchain, Function.update_self]
      obtain ⟨l, y, hlinked, hy, hyj⟩ := hreaches
      rw [hchain, ← h.head hpc] at hlinked
      exact ⟨x :: l, y, ⟨rfl, hlinked⟩, List.mem_cons_of_mem x hy, hyj⟩
    · rwa [Function.update_of_ne hchain]
  · exact Function.update_of_ne (fun heq => hj (h.single hpc' hpc heq)) ..
  · show Reaches s.tidmap i (Function.update s.tidmap.tbl (s.chain i) (some x) (s.chain i))
    rw [Function.update_self]
    exact ⟨x :: l, x, ⟨rfl, hlinked⟩, List.mem_cons_self, hkey⟩

/-- The value is stored. -/
theorem Kept.fill (h : s.Kept) (hpc : s.pc i = .fill x a) :
    ({ s.move i (.served a) with tidmap := fillEntry s.tidmap x a } : ArenaMap).Kept := by
  have hreach : ∀ j, Reaches s.tidmap j (s.tidmap.tbl (s.chain j)) →
      Reaches (fillEntry s.tidmap x a) j (s.tidmap.tbl (s.chain j)) := fun j hreaches =>
    hreaches.congr (h.chains _) keeps_fillEntry
  refine h.change (h.toSafe.fill hpc) keeps_fillEntry (fun _ _ => rfl) (fun j _ => hreach j)
    (fun _ _ _ _ _ => rfl) (by simp) fun n hn => ⟨(h.once hn).1, .inr ⟨?_, by simp, by simp⟩⟩
  exact hreach i (h.settled hn (by simp [Waiting, hpc])).1

theorem Kept.step {act : ArenaAction} (h : s.Kept) (halone : EntersAlone s act)
    (hstep : s.step act = some s') : s'.Kept := by
  have hsafe := h.toSafe.step hstep
  unfold ArenaMap.step at hstep
  cases hpc : s.pc act.i with
  | idle =>
    rw [hpc] at hstep
    cases hstep
    refine h.move hsafe (by simp) fun n hn => .inr ?_
    have htable := (h.settled hn (by simp [Waiting, hpc])).1
    exact ⟨htable, by simp, fun e he => ArenaPc.walk.inj he ▸ htable⟩
  | walk e =>
    rw [hpc] at hstep
    have hway : ∀ n, n ∈ s.drawn act.i →
        Reaches s.tidmap act.i (s.tidmap.tbl (s.chain act.i)) ∧ Reaches s.tidmap act.i e := by
      intro n hn
      obtain ⟨htable, -, hwalk⟩ := h.settled hn (by simp [Waiting, hpc])
      exact ⟨htable, hwalk e hpc⟩
    cases e with
    | none =>
      cases hstep
      exact h.move hsafe (by simp) fun n hn => absurd (hway n hn).2 not_reaches_none
    | some e =>
      simp only at hstep
      split at hstep
      case isTrue hkey =>
        cases hstep
        exact h.move hsafe (by simp) fun n hn => .inr ⟨(hway n hn).1, by simp, by simp⟩
      case isFalse hkey =>
        cases hstep
        refine h.move hsafe (by simp) fun n hn => .inr ⟨(hway n hn).1, by simp, fun e' he => ?_⟩
        rw [← ArenaPc.walk.inj he]
        exact (hway n hn).2.next hkey
  | draw =>
    rw [hpc] at hstep
    cases hstep
    exact h.draw hpc hsafe
  | enter a =>
    rw [hpc] at hstep
    simp only at hstep
    split at hstep
    case isTrue => cases hstep
    case isFalse hx =>
      cases hstep
      exact h.enter hpc hx (halone a hpc)
  | publish x a =>
    rw [hpc] at hstep
    cases hstep
    exact h.publish hpc
  | fill x a =>
    rw [hpc] at hstep
    cases hstep
    exact h.fill hpc
  | served a =>
    rw [hpc] at hstep
    cases hstep
    refine h.move hsafe (by simp) fun n hn => .inr ?_
    exact ⟨(h.settled hn (by simp [Waiting, hpc])).1, by simp, by simp⟩

theorem Init.kept (h : s.Init) : s.Kept := by
  have hsafe := h.safe
  obtain ⟨-, -, -, hpc, hdrawn⟩ := h
  refine ⟨hsafe, fun {i x a} hi => ?_, fun {i j x y a b} hi => ?_, fun {i n} hn => ?_⟩
  · rw [hpc] at hi
    cases hi
  · rw [hpc] at hi
    cases hi
  · rw [hdrawn] at hn
    cases hn

end ArenaMap

/-- **A thread keeps its arena.**  If no two threads make entries for one chain at the same time, every
thread draws at most once, and whenever it is served it is served from the arena it drew. -/
theorem served_same_arena {s : ArenaMap} (hs : Runs ArenaMap.Init ArenaMap.step ArenaMap.EntersAlone s)
    (i : ℕ) :
    (s.drawn i).length ≤ 1 ∧ ∀ a, s.pc i = .served a → ∃ n, s.drawn i = [n] ∧ a = n % initialArenas := by
  have hkept : s.Kept := hs.invariant (fun _ h => h.kept) fun _ _ _ h hguard hstep => h.step hguard hstep
  constructor
  · cases hd : s.drawn i with
    | nil => exact Nat.zero_le _
    | cons n l =>
      have honce := (hkept.once (i := i) (n := n) (by simp [hd])).1
      rw [← hd, honce]
      exact le_rfl
  · intro a ha
    obtain ⟨n, hn, rfl⟩ := hkept.arena (i := i) (a := a) (by rw [ha]; rfl)
    exact ⟨n, (hkept.once hn).1, rfl⟩

/-- A step moves one thread. -/
theorem ArenaMap.step_pc {s s' : ArenaMap} {act : ArenaAction} {j : ℕ} (hstep : s.step act = some s')
    (hj : j ≠ act.i) : s'.pc j = s.pc j := by
  unfold ArenaMap.step at hstep
  split at hstep <;> (try split at hstep) <;> simp only [Option.some.injEq, reduceCtorEq] at hstep <;>
    subst hstep <;> exact Function.update_of_ne hj _ _

/-- The step is one of a thread among `I`, and the entries that the others are making are for other
chains. -/
def ArenaMap.ApartIn (I : List ℕ) (s : ArenaMap) (act : ArenaAction) : Prop :=
  act.i ∈ I ∧ ∀ j ∈ I, j ≠ act.i → (s.pc j).entry.isSome → s.chain j ≠ s.chain act.i

instance (I : List ℕ) (s : ArenaMap) (act : ArenaAction) : Decidable (ArenaMap.ApartIn I s act) :=
  inferInstanceAs (Decidable (_ ∧ _))

/-- While all threads but those among `I` are idle, such steps make entries alone. -/
theorem ArenaMap.runs_apart {s s' : ArenaMap} {I : List ℕ} {as : List ArenaAction}
    (hs : Runs ArenaMap.Init ArenaMap.step ArenaMap.EntersAlone s) (hidle : ∀ j, j ∉ I → s.pc j = .idle)
    (h : runActions (guarded ArenaMap.step (ArenaMap.ApartIn I)) s as = some s') :
    Runs ArenaMap.Init ArenaMap.step ArenaMap.EntersAlone s' := by
  induction as generalizing s with
  | nil => exact Option.some.inj h ▸ hs
  | cons act as ih =>
    obtain ⟨s₁, hstep, hrest⟩ := Option.bind_eq_some_iff.mp h
    unfold guarded at hstep
    split at hstep
    case isFalse => cases hstep
    case isTrue hapart =>
      obtain ⟨hact, hothers⟩ := hapart
      have halone : ArenaMap.EntersAlone s act := by
        intro a ha j x b hj
        by_cases hji : j = act.i
        · rw [hji, ha] at hj
          cases hj
        · refine hothers j (by_contra fun hjI => ?_) hji (by simp [hj, ArenaPc.entry])
          rw [hidle j hjI] at hj
          cases hj
      refine ih (hs.next halone hstep) (fun j hj => ?_) hrest
      rw [ArenaMap.step_pc hstep (ne_of_mem_of_not_mem hact hj).symm, hidle j hj]

/-- The threads 33 and 34 make their entries at the same time, in two chains.  Thread 65 then makes its
own in front of that of 33, and 33 comes again. -/
def apartEntries : List ArenaAction :=
  (List.replicate 6 [⟨33, 100, 77⟩, ⟨34, 200, 77⟩]).flatten ++ List.replicate 7 ⟨65, 300, 77⟩ ++
    List.replicate 4 ⟨33, 400, 77⟩

/-- Each thread is served from the arena that it drew, 33 also the second time. -/
theorem served_same_arena_three : ∃ s : ArenaMap, s.pc 33 = .served 0 ∧ s.pc 34 = .served 1 ∧
    s.pc 65 = .served 2 ∧ ∀ i ∈ [33, 34, 65], ∃ n, s.drawn i = [n] ∧
    s.pc i = .served (n % initialArenas) := by
  have hstart : Runs ArenaMap.Init ArenaMap.step ArenaMap.EntersAlone emptyTidmap :=
    .start ⟨rfl, rfl, rfl, rfl, rfl⟩
  have hany : (runActions (guarded ArenaMap.step (ArenaMap.ApartIn [33, 34, 65])) emptyTidmap
      apartEntries).any
        (fun s => s.pc 33 = .served 0 ∧ s.pc 34 = .served 1 ∧ s.pc 65 = .served 2) = true := by
    decide +kernel
  obtain ⟨s, hrun, htest⟩ := Option.any_eq_true _ _ |>.mp hany
  obtain ⟨h33, h34, h65⟩ := of_decide_eq_true htest
  have hs := ArenaMap.runs_apart hstart (fun _ _ => rfl) hrun
  have hkeeps : ∀ {i a}, s.pc i = .served a → ∃ n, s.drawn i = [n] ∧
      s.pc i = .served (n % initialArenas) := by
    intro i a hi
    obtain ⟨n, hn, rfl⟩ := (served_same_arena hs i).2 a hi
    exact ⟨n, hn, hi⟩
  refine ⟨s, h33, h34, h65, fun i hi => ?_⟩
  simp only [List.mem_cons, List.not_mem_nil, or_false] at hi
  rcases hi with rfl | rfl | rfl
  · exact hkeeps h33
  · exact hkeeps h34
  · exact hkeeps h65

end NvmMalloc
