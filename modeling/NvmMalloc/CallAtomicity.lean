import NvmMalloc.RecoveredTable
import NvmMalloc.RecoveredRegion

/-!
# Crashes inside calls with links

Reference: `src/nvm_malloc.c` (`nvm_activate`, `nvm_free`, `nvm_initialize_recovered`), `src/arena.c`
(`arena_free`), `src/types.h` (`__NVM_REL_TO_ABS_WITH_NULL`).

An activation or a free is meant to happen as a whole or not at all.  Two things stand in the way.  The
log loop replays a link with the absolute address of its target, where the call stores the relative
one.  And the log names what was activated last: a free that commits a header which no entry names any
more stays half done.
-/

namespace NvmMalloc

open Memory CrashM

/-- The link words that a call was given hold the same in `m` and `m'`. -/
def LinksAgree (m m' : Mem) (l1 l2 : Option Link) : Prop :=
  ∀ l ∈ l1.toList ++ l2.toList, load m' l.ptr 8 = load m l.ptr 8

instance (m m' : Mem) (l1 l2 : Option Link) : Decidable (LinksAgree m m' l1 l2) :=
  inferInstanceAs (Decidable (∀ l ∈ l1.toList ++ l2.toList, load m' l.ptr 8 = load m l.ptr 8))

/-- The region is marked allocated exactly if `b`, and then its header is in state INITIALIZED. -/
def MarkedAs (m : Mem) (r : Region) (b : Bool) : Prop :=
  (MarkedAllocated m r ↔ b = true) ∧
    (b = true → getState (field m (4096 * (r.ptr / 4096)) stateF) = stateInitialized)

/-- The call of `w` that makes `r` allocated (`b = true`) or free has happened as a whole or not at
all. -/
def CallAtomic (b : Bool) (w : World) (r : Region) (l1 l2 : Option Link) (w' : World) : Prop :=
  MarkedAs w'.nvm.mem r (!b) ∧ LinksAgree w.nvm.mem w'.nvm.mem l1 l2 ∨
    MarkedAs w'.nvm.mem r b ∧
      LinksAgree (storeWords w.nvm.mem (linkWords w.nvmStart l1 l2)) w'.nvm.mem l1 l2

/-- A replay by a process mapped at `base`, which stores absolute addresses, stores what the call of
`w` stores. -/
def ReplayAgrees (base : ℕ) (w : World) (l1 l2 : Option Link) : Prop :=
  LinksAgree (storeWords w.nvm.mem (linkWords w.nvmStart l1 l2))
    (storeWords w.nvm.mem ((linkWords w.nvmStart l1 l2).map fun x => (x.1, relToAbsWithNull base x.2)))
    l1 l2

instance (base : ℕ) (w : World) (l1 l2 : Option Link) : Decidable (ReplayAgrees base w l1 l2) :=
  inferInstanceAs (Decidable (LinksAgree _ _ l1 l2))

section

variable {P : Process} {B : Blame} {L : Layout} {p p₀ : ℕ} {t : Tile} {img : Nvm} {w₀ w w' : World}
  {m m' : Mem} {r : Region} {l1 l2 : Option Link} {b : Bool} {live : List Region}

/-- A replay of NULL targets is harmless. -/
theorem replayAgrees_of_zero {base : ℕ} (h : ∀ x ∈ linkWords w.nvmStart l1 l2, x.2 = 0) :
    ReplayAgrees base w l1 l2 := by
  have hmap : (linkWords w.nvmStart l1 l2).map (fun x => (x.1, relToAbsWithNull base x.2)) =
      linkWords w.nvmStart l1 l2 := by
    calc (linkWords w.nvmStart l1 l2).map (fun x => (x.1, relToAbsWithNull base x.2))
        = (linkWords w.nvmStart l1 l2).map fun x => x := by
          refine List.map_congr_left fun x hx => Prod.ext rfl ?_
          show relToAbsWithNull base x.2 = x.2
          rw [h x hx]
          rfl
      _ = linkWords w.nvmStart l1 l2 := List.map_id' _
  unfold ReplayAgrees
  rw [hmap]
  exact fun _ _ => rfl

/-- If there is a first link then every link is stored. -/
theorem word_mem_linkWords {nvmStart : ℕ} {l : Link} (h1 : l1.isSome) (hl : l ∈ l1.toList ++ l2.toList) :
    l.word nvmStart ∈ linkWords nvmStart l1 l2 := by
  obtain ⟨x, rfl⟩ := Option.isSome_iff_exists.mp h1
  cases l2 with
  | none =>
    obtain rfl : l = x := by simpa using hl
    exact List.mem_singleton_self _
  | some y =>
    have hxy : l = x ∨ l = y := by simpa using hl
    rcases hxy with rfl | rfl
    · exact List.mem_cons_self
    · exact List.mem_cons_of_mem _ List.mem_cons_self

theorem linksAgree_of_bytes
    (h : ∀ l ∈ l1.toList ++ l2.toList, ∀ x, l.ptr ≤ x → x < l.ptr + 8 → m' x = m x) :
    LinksAgree m m' l1 l2 :=
  fun l hl => load_congr (h l hl)

theorem LinksAgree.trans {m'' : Mem} (h : LinksAgree m m' l1 l2) (h' : LinksAgree m' m'' l1 l2) :
    LinksAgree m m'' l1 l2 :=
  fun l hl => (h' l hl).trans (h l hl)

theorem LinksAgree.symm (h : LinksAgree m m' l1 l2) : LinksAgree m' m l1 l2 :=
  fun l hl => (h l hl).symm

/-! ## Headers -/

/-- Recovery settles the headers that a log entry names and leaves the others as they are. -/
theorem Recovered.settled_iff (h : Recovered P L p₀ img w₀ w) (hp : L p = some t) :
    Settled w.nvm.mem p ↔ NamedBefore img maxLogEntries p ∨ Settled img.mem p := by
  by_cases hnamed : NamedBefore img maxLogEntries p
  · refine iff_of_true ?_ (Or.inl hnamed)
    have hhdr := h.inv.hdr hp
    unfold Settled
    cases t with
    | arena => exact absurd (h.log.done hp hnamed) id
    | stuck n => exact absurd hp (h.unstuck p n)
    | run k =>
      have hdone : RunRedone img.version img.mem w₀.nvm.mem (4096 * p) := h.log.done hp hnamed
      rw [h.scan.field_eq (by decide), hdone.state]
      decide
    | huge n o =>
      have hst := hhdr.2
      simp only [List.mem_cons, List.not_mem_nil, or_false] at hst
      rw [h.state_eq hp (by simp), if_pos hnamed]
      rcases hst with hst | hst | hst | hst | hst <;> rw [hst] <;> decide
    | block n o =>
      have hst := hhdr.2.2
      simp only [List.mem_cons, List.not_mem_nil, or_false] at hst
      rw [h.state_eq hp (by simp), if_pos hnamed]
      rcases hst with hst | hst | hst | hst | hst | hst <;> rw [hst] <;> decide
  · rw [or_iff_right hnamed]
    unfold Settled
    rw [h.scan.field_eq (by decide), field_eqOn (h.log.same hp hnamed) (by decide)]

/-- A region that is marked allocated under a settled header is in state INITIALIZED. -/
theorem MarkedAllocated.initialized {m₀ : Mem} (h : MarkedAllocated m r) (ht : OnTile L m₀ r)
    (hsize : 1 ≤ r.nBytes) (hhdr : ∀ {p t}, L p = some t → HdrOk m p t)
    (hs : Settled m (r.ptr / 4096)) :
    getState (field m (4096 * (r.ptr / 4096)) stateF) = stateInitialized := by
  have hle : sclassSmallMax ≤ sclassLargeMax := by decide
  unfold MarkedAllocated at h
  cases ht with
  | @small hsmall p k i htile helem hi hptr =>
    have hpage : r.ptr / 4096 = p := (smallRegion_slot hsize hi hptr).1
    rw [hpage] at hs ⊢
    have hst := (hhdr htile).2.1
    unfold Settled at hs
    simp only [List.mem_cons, List.not_mem_nil, or_false] at hst
    rcases hst with hst | hst | hst | hst | hst <;> rw [hst] at hs ⊢ <;> revert hs <;> decide
  | large hlo hhi htile hptr =>
    rw [if_neg (by omega), if_pos hhi] at h
    rw [show 4096 * (r.ptr / 4096) = r.ptr - headerSize by simp only [headerSize]; omega, h]
    decide
  | huge hlo htile hptr =>
    rw [if_neg (by omega), if_neg (by omega)] at h
    rw [show 4096 * (r.ptr / 4096) = r.ptr - headerSize by simp only [headerSize]; omega, h]
    decide

end

/-! ## One call -/

/-- What is known of an image that a crash inside an activation or a free of `r` left. -/
structure CallImage (B : Blame) (L : Layout) (w : World) (r : Region) (l1 l2 : Option Link) (img : Nvm) :
    Prop where
  inv : ImgInv L (r.ptr / 4096) img
  blames : Blames B L img
  tile : OnTile L img.mem r
  size : 1 ≤ r.nBytes
  chunks : 20 ≤ img.nextChunk
  chain : ∀ c < 20, field img.mem (4194304 * c) nextOtChunkF = if c < 19 then 4194304 * (c + 1) else 0
  gaps : gapSlots img.mem 1260 = gapSlots w.nvm.mem 1260
  links : B.links = linkWords w.nvmStart l1 l2
  bodies : ∀ l ∈ l1.toList ++ l2.toList, L.Body l.ptr 8

section

variable {P : Process} {B : Blame} {L : Layout} {p p₀ : ℕ} {t : Tile} {img : Nvm} {w₀ w w' : World}
  {m m' : Mem} {r : Region} {l1 l2 : Option Link} {b : Bool} {live : List Region}

theorem CallImage.exists_recovers (h : CallImage B L w r l1 l2 img)
    (hB : ¬ B.grow ∧ ¬ B.convert ∧ ¬ B.fresh ∧ ¬ B.stale)
    (hgaps : (gapSlots w.nvm.mem 1260).length ≤ slotBufferSize) (P : Process) :
    ∃ w', Recovers P img w' := by
  rw [← h.gaps] at hgaps
  exact h.blames.exists_recovers h.inv hB h.chunks h.chain hgaps P

/-- What the log loop stores beside headers: the replayed links of the header in transition. -/
theorem CallImage.redone_words (h : CallImage B L w r l1 l2 img) (hstale : ¬ B.stale)
    (hnamed : Pending img.mem (r.ptr / 4096) → NamedBefore img maxLogEntries (r.ptr / 4096)) :
    (redoneBefore L (r.ptr / 4096) P.nvmStart img maxLogEntries).words =
      if Pending img.mem (r.ptr / 4096) then
        (linkWords w.nvmStart l1 l2).map fun x => (x.1, relToAbsWithNull P.nvmStart x.2)
      else [] := by
  obtain ⟨-, t, hp⟩ := h.tile.page h.size
  unfold redoneBefore
  rw [hp]
  by_cases hpend : Pending img.mem (r.ptr / 4096)
  · have hrecorded := (h.blames.words hp hpend).resolve_left hstale
    show (if NamedBefore img maxLogEntries (r.ptr / 4096) then _ else Redo.nothing).words = _
    rw [if_pos (hnamed hpend), if_pos hpend, ← h.links, ← hrecorded.1]
    exact if_pos hpend
  · show (if NamedBefore img maxLogEntries (r.ptr / 4096) then _ else Redo.nothing).words = _
    rw [if_neg hpend]
    split
    · exact if_neg hpend
    · rfl

/-- What a completed restart has made of the headers and of the link words. -/
theorem CallImage.restart (h : CallImage B L w r l1 l2 img) (hconv : ¬ B.convert) (hstale : ¬ B.stale)
    (hnamed : Pending img.mem (r.ptr / 4096) → NamedBefore img maxLogEntries (r.ptr / 4096))
    (hrec : Recovers P img w') :
    ∃ w₀ w₁, Recovered P L (r.ptr / 4096) img w₀ w₁ ∧ w'.nvm.nextChunk = w₁.nvm.nextChunk ∧
      (∀ p, EqOn w₁.nvm.mem w'.nvm.mem (4096 * p) 64) ∧
      ∀ l ∈ l1.toList ++ l2.toList, ∀ x, l.ptr ≤ x → x < l.ptr + 8 → OffHeaders L x ∧
        w'.nvm.mem x = storeWords img.mem (if Pending img.mem (r.ptr / 4096) then
          (linkWords w.nvmStart l1 l2).map fun x => (x.1, relToAbsWithNull P.nvmStart x.2) else [])
          x := by
  obtain ⟨w₀, w₁, hr, hchunks, hheaders, htables⟩ :=
    h.blames.restart h.inv hconv hstale h.chunks h.chain hrec
  refine ⟨w₀, w₁, hr, hchunks, hheaders, fun l hl x hlo hhi => ?_⟩
  have hbody := h.bodies l hl
  have hoff : OffHeaders L x := by
    intro q u hq
    have := hbody.disjoint_header h.inv.ok hq
    omega
  have htable : ∀ c < 20, x < 4194304 * c ∨ 4194304 * c + 4096 ≤ x := by
    intro c hc
    have harena : L (1024 * c) = some .arena :=
      h.inv.base hr.unstuck c hc (lt_of_lt_of_le hc h.chunks)
    have := hbody.disjoint_arena h.inv.ok harena
    omega
  refine ⟨hoff, ?_⟩
  rw [htables x htable, hr.body hoff, h.redone_words hstale hnamed]

/-- **When an interrupted call is atomic**: unless its links are replayed with other values. -/
theorem CallImage.atomic_iff (h : CallImage B L w r l1 l2 img) (hout : CallOutcome L w r l1 l2 b img)
    (hconv : ¬ B.convert) (hstale : ¬ B.stale)
    (hnamed : ¬ Settled img.mem (r.ptr / 4096) → NamedBefore img maxLogEntries (r.ptr / 4096))
    (hrec : Recovers P img w') :
    CallAtomic b w r l1 l2 w' ↔ (Pending img.mem (r.ptr / 4096) → ReplayAgrees P.nvmStart w l1 l2) := by
  obtain ⟨w₀, w₁, hr, hchunks, hheaders, hwords⟩ := h.restart hconv hstale
    (fun hpend => hnamed fun hs => hs.not_pending hpend) hrec
  obtain ⟨-, t, hp⟩ := h.tile.page h.size
  have hmarked : MarkedAllocated w'.nvm.mem r ↔ AllocatedAfter img r :=
    (MarkedAllocated.congr h.tile h.size (hheaders _)).trans (hr.marked_iff h.tile h.size)
  have hsettled : Settled w'.nvm.mem (r.ptr / 4096) := by
    have hs := (hr.settled_iff hp).mpr (or_iff_not_imp_right.mpr hnamed)
    unfold Settled at hs ⊢
    rwa [field_eqOn (hheaders _) (by decide)]
  have hmark {a : Bool} (ha : AllocatedAfter img r ↔ a = true) : MarkedAs w'.nvm.mem r a := by
    refine ⟨hmarked.trans ha, fun htrue => ?_⟩
    exact (hmarked.mpr (ha.mpr htrue)).initialized h.tile h.size
      (fun hq => (hr.aligned.hdr hq).congr (hheaders _)) hsettled
  rcases hout.outcome with ⟨hback, hpend, hmem⟩ | ⟨hdone, ws, hws, hmem, hkind⟩
  · -- nothing has happened
    refine iff_of_true (Or.inl ⟨hmark ?_, linksAgree_of_bytes fun l hl x hlo hhi => ?_⟩)
      fun hpend' => absurd hpend' hpend
    · rw [hback]
      cases b <;> decide
    · obtain ⟨hoff, hx⟩ := hwords l hl x hlo hhi
      rw [hx, if_neg hpend]
      exact hmem x hoff
  rcases hkind with ⟨hlink, hpend⟩ | ⟨rfl, hpend⟩
  · -- the log loop replays the links
    have hcovered : LinksAgree (storeWords w.nvm.mem ((linkWords w.nvmStart l1 l2).map fun x =>
        (x.1, relToAbsWithNull P.nvmStart x.2))) w'.nvm.mem l1 l2 := by
      refine linksAgree_of_bytes fun l hl x hlo hhi => ?_
      obtain ⟨-, hx⟩ := hwords l hl x hlo hhi
      rw [hx, if_pos hpend]
      exact storeWords_apply_of_mem (List.mem_map_of_mem (word_mem_linkWords hlink hl)) hlo hhi
    constructor
    · rintro (⟨hm, -⟩ | ⟨-, hlinks⟩) -
      · have := hm.1.symm.trans (hmark hdone).1
        cases b <;> simp at this
      · exact hlinks.trans hcovered.symm
    · exact fun hagree => Or.inr ⟨hmark hdone, (hagree hpend).trans hcovered⟩
  · -- everything has happened
    refine iff_of_true (Or.inr ⟨hmark hdone, linksAgree_of_bytes fun l hl x hlo hhi => ?_⟩)
      fun hpend' => absurd hpend' hpend
    obtain ⟨hoff, hx⟩ := hwords l hl x hlo hhi
    rw [hx, if_neg hpend]
    exact hmem x hoff

/-- The headers that the walk meets after the restart. -/
theorem CallImage.headers (h : CallImage B L w r l1 l2 img) (hconv : ¬ B.convert) (hstale : ¬ B.stale)
    (hrec : Recovers P img w') :
    (∀ p, p ∈ headerPages w'.nvm ↔ (L p).isSome) ∧
      ∀ {p t}, L p = some t →
        (Settled w'.nvm.mem p ↔ NamedBefore img maxLogEntries p ∨ Settled img.mem p) := by
  obtain ⟨w₀, w₁, hr, hchunks, hheaders, -⟩ := h.blames.restart h.inv hconv hstale h.chunks h.chain hrec
  have haligned : Aligned L w'.nvm.mem w'.nvm.nextChunk := by
    rw [hchunks]
    exact ⟨hr.aligned.ok, fun hp => (hr.aligned.hdr hp).congr (hheaders _), hr.aligned.unstuck⟩
  refine ⟨fun p => haligned.mem_headerPages, fun hp => ?_⟩
  rw [← hr.settled_iff hp]
  unfold Settled
  rw [field_eqOn (hheaders _) (by decide)]

/-- No header is left in transition if the log names the one that is. -/
theorem CallImage.settled (h : CallImage B L w r l1 l2 img) (hconv : ¬ B.convert) (hstale : ¬ B.stale)
    (hnamed : ¬ Settled img.mem (r.ptr / 4096) → NamedBefore img maxLogEntries (r.ptr / 4096))
    (hrec : Recovers P img w') : ∀ p ∈ headerPages w'.nvm, Settled w'.nvm.mem p := by
  obtain ⟨hpages, hsettled⟩ := h.headers hconv hstale hrec
  intro p hp
  obtain ⟨t, ht⟩ := Option.isSome_iff_exists.mp ((hpages p).mp hp)
  refine (hsettled ht).mpr ?_
  by_cases hpage : p = r.ptr / 4096
  · rw [hpage]
    exact or_iff_not_imp_right.mpr hnamed
  · exact Or.inr (h.inv.settled ht hpage)

/-- A header in transition that no entry names stays so. -/
theorem CallImage.named_of_settled (h : CallImage B L w r l1 l2 img) (hconv : ¬ B.convert)
    (hstale : ¬ B.stale) (hrec : Recovers P img w')
    (hall : ∀ p ∈ headerPages w'.nvm, Settled w'.nvm.mem p) :
    ¬ Settled img.mem (r.ptr / 4096) → NamedBefore img maxLogEntries (r.ptr / 4096) := by
  obtain ⟨hpages, hsettled⟩ := h.headers hconv hstale hrec
  obtain ⟨-, t, ht⟩ := h.tile.page h.size
  refine or_iff_not_imp_right.mp ((hsettled ht).mp (hall _ ((hpages _).mpr ?_)))
  exact Option.isSome_iff_exists.mpr ⟨t, ht⟩

/-- Only the header of the region can be in transition: if it is not, no recorded link matters. -/
theorem CallImage.unstale (h : CallImage B L w r l1 l2 img) (hpend : ¬ Pending img.mem (r.ptr / 4096)) :
    CallImage { B with stale := False } L w r l1 l2 img where
  inv := h.inv
  blames := by
    refine ⟨h.blames.stuck, h.blames.zero, h.blames.fresh, fun {p t} hp hpend' => ?_⟩
    by_cases hpage : p = r.ptr / 4096
    · exact absurd (hpage ▸ hpend') hpend
    · exact absurd hpend' (h.inv.settled hp hpage).not_pending
  tile := h.tile
  size := h.size
  chunks := h.chunks
  chain := h.chain
  gaps := h.gaps
  links := h.links
  bodies := h.bodies

/-- The links of a valid call lie in granted memory. -/
theorem LiveInv.link_bodies {H : ℕ → ArenaRun} (h : LiveInv L m H live) (h1 : LinkOk live l1)
    (h2 : LinkOk live l2) : ∀ l ∈ l1.toList ++ l2.toList, L.Body l.ptr 8 := by
  intro l hl
  rcases List.mem_append.mp hl with hl | hl
  · exact h.body (h1 l (Option.mem_toList.mp hl))
  · exact h.body (h2 l (Option.mem_toList.mp hl))

/-- The chain of tables is that of the world before the call. -/
theorem TableInv.chain_of_table (ht : TableInv w) (htable : ∀ c < initialArenas,
      EqOn w.nvm.mem m (4194304 * c) 4096) : ∀ c < 20,
      field m (4194304 * c) nextOtChunkF = if c < 19 then 4194304 * (c + 1) else 0 := by
  intro c hc
  rw [field_eqOn ((htable c hc).mono le_rfl (by omega)) (by decide), ht.chain c hc]

theorem gapSlots_of_table (htable : ∀ c < initialArenas, EqOn m m' (4194304 * c) 4096) :
    gapSlots m' 1260 = gapSlots m 1260 :=
  gapSlots_congr fun _ hs => slotUsed_eqOn (slot_eqOn_of_table htable hs)

/-- The images of `nvm_activate`. -/
theorem ActivateImage.callImage (h : ProcInv L w live) (ht : TableInv w) (hr : r ∈ live)
    (hactive : r.active = false) (h1 : LinkOk live l1) (h2 : LinkOk live l2)
    (hfresh : FreshHuge w r.ptr → B.fresh) (hstale : StaleLink w r.ptr l1 l2 → B.stale)
    (hlinks : B.links = linkWords w.nvmStart l1 l2) (himg : ActivateImage L w r l1 l2 img) :
    CallImage B L w r l1 l2 img := by
  have hheap := h.toHeapInv
  obtain ⟨hinv, -, hblames⟩ := himg.image hheap hr hactive h1 h2 hfresh hstale hlinks
  obtain ⟨hnext, htable⟩ := himg.table hheap h1 h2
  have hchunks : 19 < w.nvm.nextChunk := h.nvm.lt_nextChunk (h.nvm.base 19 (by decide))
  exact ⟨hinv, hblames, (himg.outcome hheap hr hactive).tile, (h.live.size r hr).1, hnext ▸ hchunks,
    ht.chain_of_table htable, gapSlots_of_table htable, hlinks, h.live.link_bodies h1 h2⟩

/-- `nvm_activate` names the region in the log before it touches the header. -/
theorem ActivateImage.named (h : HeapInv L w live) (hr : r ∈ live)
    (himg : ActivateImage L w r l1 l2 img) :
    Settled img.mem (r.ptr / 4096) ∨ NamedBefore img maxLogEntries (r.ptr / 4096) := by
  obtain ⟨hpos, t, hp⟩ := (h.onTile hr).page (h.live.size r hr).1
  cases himg with
  | start => exact Or.inl (h.nvm.quiet hp).settled
  | logged => exact Or.inl (h.nvm.quiet hp).settled
  | huge => exact Or.inr (namedBefore_activationLog hpos rfl rfl)
  | large => exact Or.inr (namedBefore_activationLog hpos rfl rfl)
  | small => exact Or.inr (namedBefore_activationLog hpos rfl rfl)

/-- The images of `nvm_free`. -/
theorem FreeImage.callImage (h : ProcInv L w live) (ht : TableInv w) (hr : r ∈ live)
    (h1 : LinkOk live l1) (h2 : LinkOk live l2) (hlinks : B.links = linkWords w.nvmStart l1 l2)
    (himg : FreeImage L w r l1 l2 img) : CallImage B L w r l1 l2 img := by
  have hheap := h.toHeapInv
  obtain ⟨hinv, -, hblames⟩ := himg.image hheap h1 h2 hlinks
  obtain ⟨hnext, htable⟩ := himg.table hheap h1 h2
  have hchunks : 19 < w.nvm.nextChunk := h.nvm.lt_nextChunk (h.nvm.base 19 (by decide))
  exact ⟨hinv, hblames, himg.onTile hheap hr, (h.live.size r hr).1, hnext ▸ hchunks,
    ht.chain_of_table htable, gapSlots_of_table htable, hlinks, h.live.link_bodies h1 h2⟩

end

/-! ## Activation and free -/

section

variable {P : Process} {s : Sys} {r : Region} {l1 l2 : Option Link} {img : Nvm}

/-- Every cut of `nvm_activate`. -/
theorem callImage_of_activate (hs : Reachable P s) (hvalid : (Op.activate r.ptr l1 l2).Valid s)
    (hr : r ∈ s.live) (himg : img ∈ cuts (Op.activate r.ptr l1 l2).prog s.w) :
    ∃ L, CallImage ((Op.activate r.ptr l1 l2).blame s) L s.w r l1 l2 img ∧
      CallOutcome L s.w r l1 l2 true img ∧
      (¬ Settled img.mem (r.ptr / 4096) → NamedBefore img maxLogEntries (r.ptr / 4096)) := by
  obtain ⟨L, hproc, ht, -⟩ := sysInv_of_reachable hs
  obtain ⟨⟨r', hr', hptr, hactive⟩, h1, h2⟩ := hvalid
  obtain rfl : r' = r := hproc.live.eq_of_ptr hr' hr hptr
  have hspec : Spec (Op.activate r'.ptr l1 l2).prog (ActivateImage L s.w r' l1 l2) (fun _ _ => True)
      (fun _ => False) s.w :=
    Spec.bind ((nvmActivate_spec hproc hr hactive h1 h2).mono (fun _ h => h) (fun _ _ h => h)
      fun _ h => h) fun _ _ _ => spec_pure.mpr trivial
  have himage := hspec.cuts .start himg
  exact ⟨L, himage.callImage hproc ht hr hactive h1 h2 id id rfl,
    himage.outcome hproc.toHeapInv hr hactive, or_iff_not_imp_left.mp (himage.named hproc.toHeapInv hr)⟩

/-- Every cut of `nvm_free`. -/
theorem callImage_of_free (hs : Reachable P s) (hvalid : (Op.free r.ptr l1 l2).Valid s)
    (hr : r ∈ s.live) (himg : img ∈ cuts (Op.free r.ptr l1 l2).prog s.w) :
    ∃ L, CallImage ⟨False, False, False, False, False, linkWords s.w.nvmStart l1 l2⟩ L s.w r l1 l2 img ∧
      ((Pending img.mem (r.ptr / 4096) → NamedBefore img maxLogEntries (r.ptr / 4096)) →
        CallOutcome L s.w r l1 l2 false img) := by
  obtain ⟨L, hproc, ht, -⟩ := sysInv_of_reachable hs
  obtain ⟨⟨r', hr', hptr, hactive⟩, h1, h2⟩ := hvalid
  obtain rfl : r' = r := hproc.live.eq_of_ptr hr' hr hptr
  have hspec : Spec (Op.free r'.ptr l1 l2).prog (FreeImage L s.w r' l1 l2) (fun _ _ => True)
      (fun _ => False) s.w :=
    Spec.bind ((nvmFree_spec hproc hr hactive h1 h2).mono (fun _ h => h) (fun _ _ h => h)
      fun _ h => h) fun _ _ _ => spec_pure.mpr trivial
  have himage := hspec.cuts .start himg
  exact ⟨L, himage.callImage hproc ht hr h1 h2 rfl,
    fun hnamed => himage.outcome hproc.toHeapInv hr hactive hnamed⟩

end

/-- **When a crash inside `nvm_activate` is atomic**: unless the header is in state ACTIVATING and the
replay of the links, which stores absolute addresses, stores other values than the call. -/
theorem activate_atomic_iff {P P' : Process} {s : Sys} {r : Region} {l1 l2 : Option Link} {img : Nvm}
    (hs : Reachable P s) (hvalid : (Op.activate r.ptr l1 l2).Valid s) (hr : r ∈ s.live)
    (himg : img ∈ cuts (Op.activate r.ptr l1 l2).prog s.w)
    (hstale : Pending img.mem (r.ptr / 4096) → ¬ StaleLink s.w r.ptr l1 l2) :
    (¬ FreshHuge s.w r.ptr → (gapSlots s.w.nvm.mem 1260).length ≤ slotBufferSize →
      ∃ w, Recovers P' img w) ∧
    ∀ w, Recovers P' img w → (CallAtomic true s.w r l1 l2 w ↔
      (Pending img.mem (r.ptr / 4096) → ReplayAgrees P'.nvmStart s.w l1 l2)) := by
  obtain ⟨L, himage, hout, hnamed⟩ := callImage_of_activate hs hvalid hr himg
  by_cases hpend : Pending img.mem (r.ptr / 4096)
  · exact ⟨fun hfresh hgaps => himage.exists_recovers ⟨not_false, not_false, hfresh, hstale hpend⟩
      hgaps P', fun w hrec => himage.atomic_iff hout not_false (hstale hpend) hnamed hrec⟩
  · have himage' := himage.unstale hpend
    exact ⟨fun hfresh hgaps => himage'.exists_recovers ⟨not_false, not_false, hfresh, not_false⟩
      hgaps P', fun w hrec => himage'.atomic_iff hout not_false not_false hnamed hrec⟩

/-- The block of `nvm_reserve(5000)` on a fresh heap. -/
def sampleBlock (active : Bool) : Region := ⟨4186176, 5000, active⟩

theorem not_freshHuge_sampleBlock {w : World} {active : Bool} : ¬ FreshHuge w (sampleBlock active).ptr :=
  fun h => absurd h.1 (by
    show ¬ 4186176 % chunkSize = headerSize
    decide)

/-- Evaluation of a cut inside a call on the block. -/
theorem exists_cut {ops : List Op} {op : Op} {active : Bool} {p : Sys → Nvm → Bool}
    (h : ((sampleHistory ops).any fun s => decide (op.Valid s ∧
      s.live = [sampleBlock active] ∧ s.w.ot.nextNvmSlot = 0) && (cuts op.prog s.w).any (p s)) = true) :
    ∃ s img, Reachable sampleProcess s ∧ op.Valid s ∧ sampleBlock active ∈ s.live ∧
      (gapSlots s.w.nvm.mem 1260).length ≤ slotBufferSize ∧ img ∈ cuts op.prog s.w ∧ p s img = true := by
  obtain ⟨s, hs, htest⟩ := Process.exists_reachable h
  rw [Bool.and_eq_true, decide_eq_true_iff, List.any_eq_true] at htest
  obtain ⟨⟨hvalid, hlive, hslot⟩, img, himg, hp⟩ := htest
  obtain ⟨-, -, ht, -⟩ := sysInv_of_reachable hs
  refine ⟨s, img, hs, hvalid, hlive ▸ List.mem_singleton_self _, ?_, himg, hp⟩
  exact (ht.ot.gapSlots_length_le ht.initialized).trans (by rw [hslot]; exact Nat.zero_le _)

/-- A crash after the commit of an activation that clears a link. -/
theorem activate_atomic_null_link : ∃ s img w, Reachable sampleProcess s ∧
    img ∈ cuts (Op.activate 4186176 (some ⟨4186176, 0⟩) none).prog s.w ∧ Pending img.mem 1022 ∧
    Recovers sampleProcess img w ∧
    CallAtomic true s.w (sampleBlock false) (some ⟨4186176, 0⟩) none w := by
  have hany : ((sampleHistory [.reserve 0 5000]).any fun s =>
      decide ((Op.activate 4186176 (some ⟨4186176, 0⟩) none).Valid s ∧ s.live = [sampleBlock false] ∧
        s.w.ot.nextNvmSlot = 0) &&
      (cuts (Op.activate 4186176 (some ⟨4186176, 0⟩) none).prog s.w).any fun img =>
        decide (Pending img.mem 1022 ∧ ¬ StaleLink s.w 4186176 (some ⟨4186176, 0⟩) none)) = true := by
    decide +kernel
  obtain ⟨s, img, hs, hvalid, hr, hgaps, himg, htest⟩ := exists_cut hany
  obtain ⟨hpend, hstale⟩ := of_decide_eq_true htest
  obtain ⟨hexists, hiff⟩ := @activate_atomic_iff _ sampleProcess _ _ _ _ _ hs hvalid hr himg
    fun _ => hstale
  obtain ⟨w, hrec⟩ := hexists not_freshHuge_sampleBlock hgaps
  refine ⟨s, img, w, hs, himg, hpend, hrec, (hiff w hrec).mpr fun _ => replayAgrees_of_zero ?_⟩
  intro x hx
  obtain rfl := List.mem_singleton.mp hx
  rfl

/-- `nvm_activate` with a link is cut after the commit: the link ends up with the absolute address of
its target. -/
theorem activate_replays_absolute : ∃ s img w, Reachable sampleProcess s ∧
    (Op.activate 4186176 (some ⟨4186176, 4100186176⟩) none).Valid s ∧ sampleBlock false ∈ s.live ∧
    img ∈ cuts (Op.activate 4186176 (some ⟨4186176, 4100186176⟩) none).prog s.w ∧
    Recovers sampleProcess img w ∧
    ¬ CallAtomic true s.w (sampleBlock false) (some ⟨4186176, 4100186176⟩) none w := by
  have hany : ((sampleHistory [.reserve 0 5000]).any fun s =>
      decide ((Op.activate 4186176 (some ⟨4186176, 4100186176⟩) none).Valid s ∧
        s.live = [sampleBlock false] ∧ s.w.ot.nextNvmSlot = 0) &&
      (cuts (Op.activate 4186176 (some ⟨4186176, 4100186176⟩) none).prog s.w).any fun img =>
        decide (Pending img.mem 1022 ∧ ¬ StaleLink s.w 4186176 (some ⟨4186176, 4100186176⟩) none ∧
          ¬ ReplayAgrees 4096000000 s.w (some ⟨4186176, 4100186176⟩) none)) = true := by
    decide +kernel
  obtain ⟨s, img, hs, hvalid, hr, hgaps, himg, htest⟩ := exists_cut hany
  obtain ⟨hpend, hstale, hreplay⟩ := of_decide_eq_true htest
  obtain ⟨L, himage, hout, hnamed⟩ := callImage_of_activate hs hvalid hr himg
  obtain ⟨w, hrec⟩ := himage.exists_recovers ⟨not_false, not_false, not_freshHuge_sampleBlock,
    hstale⟩ hgaps
    sampleProcess
  refine ⟨s, img, w, hs, hvalid, hr, himg, hrec, fun hatomic => hreplay ?_⟩
  exact (himage.atomic_iff hout not_false hstale hnamed hrec).mp hatomic hpend

/-- **When a crash inside `nvm_free` is atomic** and leaves no header in transition: a header in
transition is named by a log entry, and a replay of the links stores what the call stores. -/
theorem free_atomic_iff {P P' : Process} {s : Sys} {r : Region} {l1 l2 : Option Link} {img : Nvm}
    (hs : Reachable P s) (hvalid : (Op.free r.ptr l1 l2).Valid s) (hr : r ∈ s.live)
    (himg : img ∈ cuts (Op.free r.ptr l1 l2).prog s.w) :
    ((gapSlots s.w.nvm.mem 1260).length ≤ slotBufferSize → ∃ w, Recovers P' img w) ∧
    ∀ w, Recovers P' img w →
      ((CallAtomic false s.w r l1 l2 w ∧ ∀ p ∈ headerPages w.nvm, Settled w.nvm.mem p) ↔
        (¬ Settled img.mem (r.ptr / 4096) → NamedBefore img maxLogEntries (r.ptr / 4096)) ∧
        (Pending img.mem (r.ptr / 4096) → ReplayAgrees P'.nvmStart s.w l1 l2)) := by
  obtain ⟨L, himage, hout⟩ := callImage_of_free hs hvalid hr himg
  refine ⟨fun hgaps => himage.exists_recovers ⟨not_false, not_false, not_false, not_false⟩ hgaps P',
    fun w hrec => ?_⟩
  by_cases hnamed : ¬ Settled img.mem (r.ptr / 4096) → NamedBefore img maxLogEntries (r.ptr / 4096)
  · have hatomic := himage.atomic_iff (hout fun hpend => hnamed fun hs => hs.not_pending hpend)
      not_false not_false hnamed hrec
    rw [hatomic, and_iff_left (himage.settled not_false not_false hnamed hrec)]
    exact (and_iff_right hnamed).symm
  · refine iff_of_false (fun h => hnamed ?_) fun h => hnamed h.1
    exact himage.named_of_settled not_false not_false hrec h.2

/-- A crash after the commit of a free that clears a link, on a block that the log still names. -/
theorem free_atomic_null_link : ∃ s img w, Reachable sampleProcess s ∧
    img ∈ cuts (Op.free 4186176 (some ⟨4186176, 0⟩) none).prog s.w ∧ Pending img.mem 1022 ∧
    Recovers sampleProcess img w ∧
    CallAtomic false s.w (sampleBlock true) (some ⟨4186176, 0⟩) none w := by
  have hany : ((sampleHistory [.reserve 0 5000, .activate 4186176 none none]).any fun s =>
      decide ((Op.free 4186176 (some ⟨4186176, 0⟩) none).Valid s ∧ s.live = [sampleBlock true] ∧
        s.w.ot.nextNvmSlot = 0) &&
      (cuts (Op.free 4186176 (some ⟨4186176, 0⟩) none).prog s.w).any fun img =>
        decide (Pending img.mem 1022 ∧ NamedBefore img maxLogEntries 1022)) = true := by
    decide +kernel
  obtain ⟨s, img, hs, hvalid, hr, hgaps, himg, htest⟩ := exists_cut hany
  obtain ⟨hpend, hnamed⟩ := of_decide_eq_true htest
  obtain ⟨hexists, hiff⟩ := @free_atomic_iff _ sampleProcess _ _ _ _ _ hs hvalid hr himg
  obtain ⟨w, hrec⟩ := hexists hgaps
  refine ⟨s, img, w, hs, himg, hpend, hrec, ((hiff w hrec).mpr ⟨fun _ => hnamed, fun _ =>
    replayAgrees_of_zero fun x hx => ?_⟩).1⟩
  obtain rfl := List.mem_singleton.mp hx
  rfl

/-- `nvm_free` with a link is cut after the commit: the link ends up with the absolute address of its
target. -/
theorem free_replays_absolute : ∃ s img w, Reachable sampleProcess s ∧
    (Op.free 4186176 (some ⟨4186176, 4100186176⟩) none).Valid s ∧ sampleBlock true ∈ s.live ∧
    img ∈ cuts (Op.free 4186176 (some ⟨4186176, 4100186176⟩) none).prog s.w ∧
    Recovers sampleProcess img w ∧
    ¬ CallAtomic false s.w (sampleBlock true) (some ⟨4186176, 4100186176⟩) none w := by
  have hany : ((sampleHistory [.reserve 0 5000, .activate 4186176 none none]).any fun s =>
      decide ((Op.free 4186176 (some ⟨4186176, 4100186176⟩) none).Valid s ∧
        s.live = [sampleBlock true] ∧ s.w.ot.nextNvmSlot = 0) &&
      (cuts (Op.free 4186176 (some ⟨4186176, 4100186176⟩) none).prog s.w).any fun img =>
        decide (Pending img.mem 1022 ∧ NamedBefore img maxLogEntries 1022 ∧
          ¬ ReplayAgrees 4096000000 s.w (some ⟨4186176, 4100186176⟩) none)) = true := by
    decide +kernel
  obtain ⟨s, img, hs, hvalid, hr, hgaps, himg, htest⟩ := exists_cut hany
  obtain ⟨hpend, hnamed, hreplay⟩ := of_decide_eq_true htest
  obtain ⟨L, himage, hout⟩ := callImage_of_free hs hvalid hr himg
  obtain ⟨w, hrec⟩ := himage.exists_recovers ⟨not_false, not_false, not_false, not_false⟩ hgaps
    sampleProcess
  refine ⟨s, img, w, hs, hvalid, hr, himg, hrec, fun hatomic => hreplay ?_⟩
  exact (himage.atomic_iff (hout fun _ => hnamed) not_false not_false (fun _ => hnamed) hrec).mp
    hatomic hpend

end NvmMalloc
