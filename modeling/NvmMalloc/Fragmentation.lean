import Mathlib.Logic.Relation
import NvmMalloc.Reachability

/-!
# What a page can still become

Reference: `src/arena.c` (`arena_free`, `arena_create_block`, `arena_create_run`), `src/nvm_malloc.c`
(`nvm_reserve`, `nvm_free`).

A page run that is freed goes back to its tree as it is: nothing merges it with a free neighbour, a run
whose slots are all free keeps its page, and a huge region is never cut into pages.  So every allocation
leaves a mark for the rest of the process.  The page on which it starts will always be the start of a
region, and it goes over from one size class to another only from large to small.
-/

namespace NvmMalloc

open Memory

/-- `s'` comes any number of calls after `s`. -/
abbrev Later : Sys → Sys → Prop := Relation.ReflTransGen fun s s' => ∃ op, Step s op s'

/-- The requests that a tile of the client can serve. -/
def Tile.Serves (nBytes : ℕ) : Tile → Prop
  | .run _ => nBytes ≤ sclassSmallMax
  | .block _ _ => sclassSmallMax < nBytes ∧ nBytes ≤ sclassLargeMax
  | .huge _ _ => sclassLargeMax < nBytes
  | _ => False

/-- A page that was the start of a region for `n` bytes may start one for `n'` bytes. -/
structure MayTurn (n n' : ℕ) : Prop where
  small : n ≤ sclassSmallMax → n' ≤ sclassSmallMax
  large : n ≤ sclassLargeMax → n' ≤ sclassLargeMax
  huge : sclassLargeMax < n → sclassLargeMax < n'

section

variable {L : Layout} {m : Mem} {H : ℕ → ArenaRun} {r : Region} {s s' : Sys}

theorem Tile.Becomes.mayTurn {t u : Tile} {n n' : ℕ} (h : t.Becomes u) (ht : t.Serves n)
    (hu : u.Serves n') : MayTurn n n' := by
  have hle : sclassSmallMax ≤ sclassLargeMax := by decide
  cases h with
  | same t => cases t <;> simp only [Tile.Serves] at ht hu <;> exact ⟨by omega, by omega, by omega⟩
  | _ =>
    simp only [Tile.Serves] at ht hu
    exact ⟨by omega, by omega, by omega⟩

/-- The tile of a region serves its size and reaches to its end. -/
theorem LiveInv.tile {live : List Region} (h : LiveInv L m H live) (hr : r ∈ live) :
    ∃ t, L (r.ptr / blockSize) = some t ∧ t.Serves r.nBytes ∧
      r.ptr + grantedLen r.nBytes ≤ 4096 * (r.ptr / blockSize + t.len) := by
  obtain ⟨p, t, hp, -, hpage, -, hend⟩ := (h.placed r hr).span (h.size r hr)
  rw [← hpage] at hp hend
  refine ⟨t, hp, ?_, hend⟩
  cases h.placed r hr with
  | @small hs q k i htile helem hi hptr =>
    have hq : r.ptr / 4096 = q := by
      rw [hptr]
      exact slot_page (le_elemSize (h.size r hr).1 helem) hi
    rw [hq, htile] at hp
    exact Option.some.inj hp ▸ hs
  | @large hlo hhi q htile hptr =>
    rw [show r.ptr / 4096 = q by omega, htile] at hp
    exact Option.some.inj hp ▸ ⟨hlo, hhi⟩
  | @huge hlo q htile hptr =>
    rw [show r.ptr / 4096 = q by omega, htile] at hp
    exact Option.some.inj hp ▸ hlo

/-- The layout of a later state refines that of the earlier one. -/
theorem Later.refines (hlater : Later s s') (h : ProcInv L s.w s.live) (ht : TableInv s.w) :
    ∃ L', ProcInv L' s'.w s'.live ∧ TableInv s'.w ∧ L.Refines L' := by
  induction hlater with
  | refl => exact ⟨L, h, ht, .refl L⟩
  | tail _ hstep ih =>
    obtain ⟨L₁, h₁, ht₁, hrefines⟩ := ih
    obtain ⟨op, hvalid, hrun⟩ := hstep
    obtain ⟨L₂, h₂, ht₂, -, hevolves⟩ := (op_evolves h₁ ht₁ hvalid).result hrun
    exact ⟨L₂, h₂, ht₂, hrefines.trans hevolves.refines⟩

theorem Later.of_execs {ops : List Op} (h : s.execs ops = some s') : Later s s' := by
  induction ops generalizing s with
  | nil => exact Option.some.inj h ▸ .refl
  | cons op ops ih =>
    obtain ⟨s₁, hexec, hrest⟩ := Option.bind_eq_some_iff.mp h
    exact .head ⟨op, Sys.step_of_exec hexec⟩ (ih hrest)

end

/-- **Regions are never merged, and pages keep their size class but for large to small.**  Let `r` be
outstanding at some time and `r'` at the same time or later.  If `r'` begins on an earlier page, it ends
before the page on which `r` began; and if both begin on one page, `r'` is small if `r` was, at most
large if `r` was, and huge if `r` was. -/
theorem regions_never_merged {P : Process} {s s' : Sys} (hs : Reachable P s) (hlater : Later s s')
    {r r' : Region} (hr : r ∈ s.live) (hr' : r' ∈ s'.live) :
    (r'.ptr / blockSize < r.ptr / blockSize →
      r'.ptr + grantedLen r'.nBytes ≤ r.ptr / blockSize * blockSize) ∧
    (r'.ptr / blockSize = r.ptr / blockSize → MayTurn r.nBytes r'.nBytes) := by
  obtain ⟨L, h, ht, -⟩ := sysInv_of_reachable hs
  obtain ⟨L', h', -, hrefines⟩ := hlater.refines h ht
  obtain ⟨t, hp, hserves, -⟩ := h.live.tile hr
  obtain ⟨t', hp', hserves', hend⟩ := h'.live.tile hr'
  obtain ⟨u, hu, hbecomes⟩ := hrefines _ t hp
  constructor
  · intro hlt
    -- the tile that began with `r` is still one
    have hdisjoint := h'.nvm.ok.disjoint hp' hu (by omega)
    simp only [blockSize] at *
    omega
  · intro hpage
    rw [hpage, hu, Option.some.injEq] at hp'
    exact hbecomes.mayTurn hserves (hp' ▸ hserves')

/-- Two pages are given back between free pages.  The next request for three pages does not use them. -/
theorem regions_never_merged_freed : ∃ s s', Reachable sampleProcess s ∧ Later s s' ∧
    ⟨4186176, 5000, true⟩ ∈ s.live ∧ ⟨4173888, 10000, false⟩ ∈ s'.live ∧
    4173888 + grantedLen 10000 ≤ 4186176 / blockSize * blockSize := by
  have hany : ((sampleHistory [.reserve 0 5000, .activate 4186176 none none]).any
      fun s => decide (⟨4186176, 5000, true⟩ ∈ s.live) &&
        (s.execs [.free 4186176 none none, .reserve 0 10000]).any fun s' =>
          decide (⟨4173888, 10000, false⟩ ∈ s'.live)) = true := by
    decide +kernel
  obtain ⟨s, hs, htest⟩ := Process.exists_reachable hany
  obtain ⟨hr, hlater⟩ := Bool.and_eq_true_iff.mp htest
  obtain ⟨s', hexecs, hr'⟩ := (Option.any_eq_true _ _).mp hlater
  refine ⟨s, s', hs, .of_execs hexecs, of_decide_eq_true hr, of_decide_eq_true hr', ?_⟩
  exact (regions_never_merged hs (.of_execs hexecs) (of_decide_eq_true hr) (of_decide_eq_true hr')).1
    (by decide)

end NvmMalloc
