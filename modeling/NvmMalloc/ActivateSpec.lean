import NvmMalloc.LinkSpec
import NvmMalloc.Walk

/-!
# Activation

Reference: `src/nvm_malloc.c` (`nvm_activate`, `log_activate`).

`nvm_activate` first names its pointer in the log and then runs one of the three header protocols.  The
crash images of the call are described by the progress of that protocol; the layout does not change
before the call returns.
-/

namespace NvmMalloc

open Memory CrashM

variable {L : Layout} {w : World} {live live' : List Region} {B : Blame} {p : ℕ} {t : Tile}
  {ws : List (ℕ × ℕ)}

/-! ## Link words in bodies -/

theorem Layout.Bodies.of_prefix {ws' : List (ℕ × ℕ)} (h : L.Bodies ws) (hpre : ws' <+: ws) :
    L.Bodies ws' :=
  fun x hx => h x (hpre.subset hx)

/-- Words in bodies miss the headers. -/
theorem Layout.Bodies.outside {c : ℕ} (h : L.Bodies ws) (hok : L.Ok c) (hp : L p = some t) :
    Outside ws (4096 * p) 64 := by
  intro x hx
  have hd := (h x hx).disjoint_header hok hp
  omega

/-- Words in bodies miss the header pages of the chunks. -/
theorem Layout.Bodies.outside_arena {c : ℕ} (h : L.Bodies ws) (hok : L.Ok c)
    (hp : L p = some .arena) : Outside ws (4096 * p) 4096 := by
  intro x hx
  have hd := (h x hx).disjoint_arena hok hp
  omega

/-- Words in bodies lie in the heap. -/
theorem Layout.Bodies.eq_off {c : ℕ} {m : Mem} (h : L.Bodies ws) (hok : L.Ok c) {x : ℕ}
    (hx : 4194304 * c ≤ x) : storeWords m ws x = m x := by
  have hout : Outside ws x 1 := by
    intro y hy
    have hlt := (h y hy).lt hok
    omega
  exact hout.eqOn m x le_rfl (by omega)

/-- The heap after word stores into bodies. -/
theorem HeapInv.storeWords (h : HeapInv L w live) (hws : L.Bodies ws) :
    HeapInv L (w.setMem (Memory.storeWords w.nvm.mem ws)) live := by
  refine h.setBody (fun hq => (hws.outside h.nvm.ok hq).eqOn _) (fun x hx => ?_)
    (h.nvm.slots.congr (fun c hc => ?_) fun _ hx => hx)
  · rw [hws.eq_off h.nvm.ok hx]
    exact h.nvm.zero x hx
  · have hout := (hws.outside_arena h.nvm.ok (h.nvm.base c hc)).eqOn w.nvm.mem
    rwa [show 4096 * (1024 * c) = 4194304 * c by omega] at hout

/-- Link arguments in granted memory are words in bodies. -/
theorem LiveInv.linkWords {m : Mem} {H : ℕ → ArenaRun} {l1 l2 : Option Link}
    (h : LiveInv L m H live) (nvmStart : ℕ) (h1 : LinkOk live l1) (h2 : LinkOk live l2) :
    L.Bodies (linkWords nvmStart l1 l2) := by
  intro x hx
  cases l1 with
  | none => exact absurd hx (by simp [NvmMalloc.linkWords])
  | some y =>
    have hy := h.body (h1 y rfl)
    cases l2 with
    | none =>
      simp only [NvmMalloc.linkWords, List.mem_singleton] at hx
      subst hx
      exact hy
    | some z =>
      have hz := h.body (h2 z rfl)
      simp only [NvmMalloc.linkWords, List.mem_cons, List.not_mem_nil, or_false] at hx
      rcases hx with rfl | rfl
      · exact hy
      · exact hz

/-- Link pointers in granted memory fit into a header. -/
theorem HeapInv.link_inHeap (h : HeapInv L w live) {l : Option Link} (hl : LinkOk live l) :
    ∀ x ∈ l, x.InHeap := by
  intro x hx
  have hbody := h.live.body (hl x hx)
  have hlt := hbody.lt h.nvm.ok
  obtain ⟨q, u, hq, -, hlo, -⟩ := hbody
  have hle := h.nvm.le
  rw [show maxNvmChunks = 25600 by decide] at hle
  exact ⟨by omega, by omega⟩

/-! ## Crash images with one header in transition -/

/-- The header protocols leave the object tables alone. -/
theorem HeapInv.table_of_protocol (h : HeapInv L w live) {m : Mem} (hp : L p = some t)
    (hne : t ≠ .arena) (hws : L.Bodies ws)
    (hoff : EqOff (Memory.storeWords w.nvm.mem ws) m (4096 * p) 64) :
    ∀ c < initialArenas, EqOn w.nvm.mem m (4194304 * c) 4096 := by
  intro c hc
  have hout := hws.outside_arena h.nvm.ok (h.nvm.base c hc)
  have hpage : 4096 * (1024 * c) = 4194304 * c := by omega
  rw [hpage] at hout
  have hlen := h.nvm.ok.len_pos hp
  exact (hout.eqOn w.nvm.mem).trans
    ((h.storeWords hws).nvm.table_eqOn hp hne le_rfl (by omega) hoff c hc)

/-- A crash while the words `ws` are written and the header at `p` is in transition: the layout is
unchanged, and the regions `live'` survive if those on page `p` do. -/
theorem HeapInv.image (h : HeapInv L w live) {m : Mem} {log : ℕ → ℕ} (hp : L p = some t)
    (hws : L.Bodies ws) (hoff : EqOff (Memory.storeWords w.nvm.mem ws) m (4096 * p) 64)
    (hhdr : HdrOk m p t) (hver : ∀ k, t = .run k → field m (4096 * p) versionF = 0)
    (hlog : ∀ i < maxLogEntries, log i ≠ 0 → Logged L (log i)) (hlive : ∀ r ∈ live', r ∈ live)
    (hkept : ∀ r ∈ live', r.active = true → r.ptr / 4096 = p → KeptRegion L m r)
    (hold : ∀ i < maxLogEntries, log i = w.nvm.log i ∨ log i / 4096 = p)
    (hblock : ∀ n o, t = .block n o → field m (4096 * p) stateF ≠ 0 ∧
      field m (4096 * p) stateF ≠ usageFree + stateInitializing) (hne : t ≠ .arena)
    (hfresh : ∀ n o, t = .huge n o →
      field m (4096 * p) stateF = usageHuge + stateInitializing → B.fresh)
    (hwords : Pending m p →
      B.stale ∨ recordedWords m (4096 * p) t.on = B.links ∧ L.Bodies B.links) :
    ImgInv L p { w.nvm with mem := m, log := log } ∧ Kept live' L m ∧
      Blames B L { w.nvm with mem := m, log := log } := by
  have h' := h.storeWords hws
  have hline : ∀ {q u}, L q = some u → q ≠ p →
      EqOn (Memory.storeWords w.nvm.mem ws) m (4096 * q) 64 :=
    fun hq hne => h.nvm.ok.eqOn_header hoff hp hq hne
  refine ⟨⟨h.nvm.ok, h.nvm.le, fun _ c hc _ => h.nvm.base c hc, fun {q u} hq => ?_,
    fun {q u} hq hne => ?_, hlog, fun hq => ?_, fun {q k} hq => ?_,
      fun hq => absurd (h.nvm.quiet hq) id, fun hq => absurd (h.nvm.quiet hq) id,
      fun {q n o} hq hst => ?_,
      h.nvm.slots.congr (h.table_of_protocol hp hne hws hoff) fun _ hx => hx⟩,
    fun r hr hactive => ?_, fun hq => absurd (h.nvm.quiet hq) id, fun {q n o} hq hst => ?_,
    fun {q n o i} hq hi hnamed hst => ?_, fun {q u} hq hpend => ?_⟩
  · by_cases hqp : q = p
    · subst hqp
      rw [hp, Option.some.injEq] at hq
      exact hq ▸ hhdr
    · exact (h'.nvm.quiet hq).hdrOk.congr (hline hq hqp)
  · exact (h'.nvm.quiet hq).settled.congr (hline hq hne)
  · exact absurd (h.nvm.quiet hq) id
  · refine ⟨?_, h.nvm.version⟩
    by_cases hqp : q = p
    · subst hqp
      rw [hp, Option.some.injEq] at hq
      exact hver k hq
    · exact (field_eqOn (hline hq hqp) (by decide)).trans (h'.nvm.runVersion hq)
  · by_cases hqp : q = p
    · subst hqp
      rw [hp, Option.some.injEq] at hq
      exact absurd hst (hblock n o hq).2
    · exact absurd ((field_eqOn (hline hq hqp) (by decide)).symm.trans hst)
        (h'.nvm.quiet hq).state_ne_initializing
  · by_cases hpage : r.ptr / 4096 = p
    · exact hkept r hr hactive hpage
    · obtain ⟨q, v, hq, -, hqpage, -⟩ := (h.live.placed r (hlive r hr)).span (h.live.size r (hlive r hr))
      refine (h'.kept r (hlive r hr) hactive).of_page (h.live.size r (hlive r hr)).1 rfl ?_
      rw [hqpage]
      exact hline hq (hqpage ▸ hpage)
  · by_cases hqp : q = p
    · subst hqp
      rw [hp, Option.some.injEq] at hq
      exact absurd hst (hblock n o hq).1
    · refine absurd ?_ (h'.nvm.quiet hq).state_ne_zero
      exact (field_eqOn (hline hq hqp) (by decide)).symm.trans hst
  · by_cases hqp : q = p
    · subst hqp
      rw [hp, Option.some.injEq] at hq
      exact hfresh n o hq hst
    · have hnamed' : log i = 4096 * q + 64 := hnamed
      refine (h'.nvm.blames B).fresh hq hi ?_ ((field_eqOn (hline hq hqp) (by decide)).symm.trans hst)
      rcases hold i hi with hold | hpage
      · exact hold.symm.trans hnamed'
      · exact absurd (show q = p by omega) hqp
  · by_cases hqp : q = p
    · subst hqp
      rw [hp, Option.some.injEq] at hq
      exact hq ▸ hwords hpend
    · exact absurd hpend ((h'.nvm.quiet hq).settled.congr (hline hq hqp)).not_pending

/-! ## The ledger after an activation -/

theorem mem_setActive {ptr : ℕ} {r : Region} : r ∈ setActive ptr live ↔
    (r.ptr ≠ ptr ∧ r ∈ live) ∨ ∃ r' ∈ live, r'.ptr = ptr ∧ r = { r' with active := true } := by
  unfold setActive
  rw [List.mem_map]
  constructor
  · rintro ⟨r', hr', rfl⟩
    by_cases hptr : r'.ptr = ptr
    · rw [if_pos hptr]
      exact Or.inr ⟨r', hr', hptr, rfl⟩
    · rw [if_neg hptr]
      exact Or.inl ⟨hptr, hr'⟩
  · rintro (⟨hptr, hr⟩ | ⟨r', hr', hptr, rfl⟩)
    · exact ⟨r, hr, by rw [if_neg hptr]⟩
    · exact ⟨r', hr', by rw [if_pos hptr]⟩

theorem map_ptr_setActive (ptr : ℕ) : (setActive ptr live).map Region.ptr = live.map Region.ptr := by
  unfold setActive
  rw [List.map_map]
  refine List.map_congr_left fun r _ => ?_
  simp only [Function.comp_apply]
  split <;> rfl

/-- A pointer of the ledger is still in it after an activation. -/
theorem exists_setActive {ptr x : ℕ} (h : ∃ r ∈ live, r.ptr = x) :
    ∃ r ∈ setActive ptr live, r.ptr = x := by
  have hmem : x ∈ (setActive ptr live).map Region.ptr := by
    rw [map_ptr_setActive]
    exact List.mem_map.mpr h
  exact List.mem_map.mp hmem

/-- An activation changes the placement of its own region only. -/
theorem LiveInv.activate {L' : Layout} {m m' : Mem} {H : ℕ → ArenaRun} {ptr : ℕ}
    (h : LiveInv L m H live)
    (hplaced : ∀ r ∈ setActive ptr live, Placed L' m' H r)
    (hblock : ∀ q n b, L' q = some (.block n (.user b)) → ∃ b', L q = some (.block n (.user b')))
    (hhuge : ∀ q n b, L' q = some (.huge n (.user b)) → ∃ b', L q = some (.huge n (.user b')))
    (hrun : ∀ q k, L' q = some (.run k) → L q = some (.run k))
    (hbit : ∀ q k i, L q = some (.run k) → i < 64 → bitmapBit m' (4096 * q) i = true →
      i < slotsPerRun (H k).elemSize ∧ (H k).bitmap i = true) :
    LiveInv L' m' H (setActive ptr live) where
  nodup := by
    rw [map_ptr_setActive]
    exact h.nodup
  size r hr := by
    rcases mem_setActive.mp hr with ⟨-, hr⟩ | ⟨r', hr', -, rfl⟩
    · exact h.size r hr
    · exact h.size r' hr'
  placed := hplaced
  block hq := by
    obtain ⟨b', hq'⟩ := hblock _ _ _ hq
    exact exists_setActive (h.block hq')
  huge hq := by
    obtain ⟨b', hq'⟩ := hhuge _ _ _ hq
    exact exists_setActive (h.huge hq')
  slot hq hi hb := exists_setActive (h.slot (hrun _ _ hq) hi hb)
  nvmBit hq hi hb := hbit _ _ _ (hrun _ _ hq) hi hb

/-- A large or huge region becomes active. -/
theorem HeapInv.activateTile (h : HeapInv L w live) {m : Mem} {u : Tile} {r : Region}
    (hr : r ∈ live) (hptr : r.ptr = 4096 * p + 64) (hp : L p = some t)
    (heq : EqOff w.nvm.mem m (4096 * p) 64) (hquiet : Quiet m p u)
    (hkind : (∃ n, t = .block n (.user false) ∧ u = .block n (.user true)) ∨
      ∃ n, t = .huge n (.user false) ∧ u = .huge n (.user true)) :
    HeapInv (L.set p u) (w.setMem m) (setActive r.ptr live) := by
  have hlen : u.len = t.len := by rcases hkind with ⟨n, rfl, rfl⟩ | ⟨n, rfl, rfl⟩ <;> rfl
  have hfits : u.Fits p := by
    have := h.nvm.ok.fits hp
    rcases hkind with ⟨n, rfl, rfl⟩ | ⟨n, rfl, rfl⟩ <;> exact this
  have hne : ∀ k, t ≠ .run k := by rcases hkind with ⟨n, rfl, rfl⟩ | ⟨n, rfl, rfl⟩ <;> simp
  have hiff : ∀ {v : Tile}, (∀ n b, v ≠ .block n (.user b)) → (∀ n b, v ≠ .huge n (.user b)) →
      ∀ q, L.set p u q = some v ↔ L q = some v := by
    intro v hb hh q
    refine Layout.set_eq_some_iff ?_ ?_
    · rw [hp]
      rcases hkind with ⟨n, rfl, rfl⟩ | ⟨n, rfl, rfl⟩
      · exact fun heq => hb n false (Option.some.inj heq).symm
      · exact fun heq => hh n false (Option.some.inj heq).symm
    · rcases hkind with ⟨n, rfl, rfl⟩ | ⟨n, rfl, rfl⟩
      · exact (hb n true).symm
      · exact (hh n true).symm
  have hline : ∀ q k, L q = some (.run k) → EqOn w.nvm.mem m (4096 * q) 64 := by
    intro q k hq
    refine h.nvm.ok.eqOn_header heq hp hq fun hqp => hne k ?_
    rw [hqp, hp, Option.some.injEq] at hq
    exact hq
  refine ⟨?_, ?_, ?_, ?_⟩
  · refine h.nvm.setHeader hp heq hlen hfits hquiet ?_ ?_ ?_ fun x hx => ?_
    · rcases hkind with ⟨n, rfl, rfl⟩ | ⟨n, rfl, rfl⟩ <;> simp
    · rcases hkind with ⟨n, rfl, rfl⟩ | ⟨n, rfl, rfl⟩ <;> simp
    · rintro n o i rfl - -
      rcases hkind with ⟨n', -, hu⟩ | ⟨n', -, hu⟩
      · exact absurd hu (by simp)
      · rw [Tile.huge.injEq] at hu
        rw [hu.2] at hquiet
        rw [hquiet.2.1]
        decide
    · rcases hkind with ⟨n, rfl, rfl⟩ | ⟨n, rfl, rfl⟩ <;> exact hx
  · exact h.pool.congr (fun q n a => hiff (by simp) (by simp) q)
      (fun q n a => hiff (by simp) (by simp) q) (fun _ => rfl) rfl
  · exact h.runs.congr (fun q k => hiff (by simp) (by simp) q) hline rfl rfl
  · refine h.live.activate (fun r' hr' => ?_) (fun q n b hq => ?_) (fun q n b hq => ?_)
      (fun q k hq => (hiff (by simp) (by simp) q).mp hq) fun q k i hq hi hb => ?_
    · rcases mem_setActive.mp hr' with ⟨hne', hr'⟩ | ⟨r'', hr'', hptr'', rfl⟩
      · -- another region keeps its tile
        have hkeep : ∀ {q v}, L q = some v → q ≠ p → L.set p u q = some v :=
          fun hq hqp => by rwa [Layout.set_of_ne hqp]
        have hslots := fun q k (hq : L q = some (.run k)) => h.slots_le hq
        cases h.live.placed r' hr' with
        | @small hs q k i htile he hi hptr' hbit hnvm =>
          refine .small hs ((hiff (by simp) (by simp) q).mpr htile) he hi hptr' hbit ?_
          have := hslots q k htile
          rw [setMem_nvm, bitmapBit_eqOn (hline q k htile) (by omega)]
          exact hnvm
        | @large hlo hhi q htile hptr' =>
          exact .large hlo hhi (hkeep htile (by rintro rfl; exact hne' (hptr'.trans hptr.symm))) hptr'
        | @huge hlo q htile hptr' =>
          exact .huge hlo (hkeep htile (by rintro rfl; exact hne' (hptr'.trans hptr.symm))) hptr'
      · -- the activated region
        obtain rfl : r'' = r := h.live.eq_of_ptr hr'' hr hptr''
        cases h.live.placed r'' hr'' with
        | @small hs q k i htile he hi hptr' hbit hnvm =>
          obtain rfl : q = p := by
            have := slot_page (p := q) (le_elemSize (h.live.size r'' hr'').1 he) hi
            omega
          exact absurd (Option.some.inj (hp.symm.trans htile)) (hne k)
        | @large hlo hhi q htile hptr' =>
          obtain rfl : q = p := by omega
          rw [hp, Option.some.injEq] at htile
          rcases hkind with ⟨n, rfl, rfl⟩ | ⟨n, rfl, rfl⟩
          · rw [Tile.block.injEq] at htile
            exact .large hlo hhi (by rw [Layout.set_self, htile.1]) hptr'
          · exact absurd htile (by simp)
        | @huge hlo q htile hptr' =>
          obtain rfl : q = p := by omega
          rw [hp, Option.some.injEq] at htile
          rcases hkind with ⟨n, rfl, rfl⟩ | ⟨n, rfl, rfl⟩
          · exact absurd htile (by simp)
          · rw [Tile.huge.injEq] at htile
            exact .huge hlo (by rw [Layout.set_self, htile.1]) hptr'
    · rcases Layout.set_eq_some hq with ⟨rfl, hu⟩ | ⟨-, hq⟩
      · rcases hkind with ⟨n', rfl, rfl⟩ | ⟨n', rfl, rfl⟩
        · rw [Tile.block.injEq] at hu
          exact ⟨false, by rw [hp, hu.1]⟩
        · exact absurd hu (by simp)
      · exact ⟨b, hq⟩
    · rcases Layout.set_eq_some hq with ⟨rfl, hu⟩ | ⟨-, hq⟩
      · rcases hkind with ⟨n', rfl, rfl⟩ | ⟨n', rfl, rfl⟩
        · exact absurd hu (by simp)
        · rw [Tile.huge.injEq] at hu
          exact ⟨false, by rw [hp, hu.1]⟩
      · exact ⟨b, hq⟩
    · rw [setMem_nvm, bitmapBit_eqOn (hline q k hq) hi] at hb
      exact h.live.nvmBit hq hi hb

/-! ## Changing the bitmap of a run -/

theorem Layout.set_eq_self (hp : L p = some t) : L.set p t = L := by
  unfold Layout.set
  rw [← hp, Function.update_eq_self]

/-- The fields of a run header that the protocols keep. -/
theorem field_keep {m₀ m : Mem} {h : ℕ} {f : NvmField}
    (hkeep : ∀ x, h + 1 ≤ x → x < h + 16 ∨ h + 58 ≤ x → x < h + 64 → m x = m₀ x)
    (hf : (1 ≤ f.off ∧ f.off + f.width ≤ 16) ∨ (58 ≤ f.off ∧ f.off + f.width ≤ 64)) :
    field m h f = field m₀ h f :=
  field_congr fun x hx hx' => hkeep x (by omega) (by omega) (by omega)

/-- The layout evolves when a protocol has run on one header. -/
theorem HeapInv.evolves_of_protocol (h : HeapInv L w live) {m : Mem} {u : Tile} (hp : L p = some t)
    (hu : t.Becomes u) (hws : L.Bodies ws)
    (hoff : EqOff (Memory.storeWords w.nvm.mem ws) m (4096 * p) 64)
    (harena : ArenaTile w.nvm.mem p t → ArenaTile m p u) :
    Evolves True L w.nvm.mem (L.set p u) m := by
  have hout := (hws.outside h.nvm.ok hp).eqOn w.nvm.mem
  have hlinks : Evolves True L w.nvm.mem L (Memory.storeWords w.nvm.mem ws) :=
    .headers fun _ _ hq => (hws.outside h.nvm.ok hq).eqOn _
  exact hlinks.trans (fun _ _ => trivial)
    (.set h.nvm.ok hp hu hoff fun _ ht => harena (ht.congr hout.symm))

/-- What a finished protocol of the run on page `p` has made of memory `m`: bit `i` is `b`. -/
structure RunEdit (m m' : Mem) (p i : ℕ) (b : Bool) : Prop where
  off : EqOff m m' (4096 * p) 64
  state : field m' (4096 * p) stateF = usageRun + stateInitialized
  keep : ∀ x, 4096 * p + 1 ≤ x → x < 4096 * p + 16 ∨ 4096 * p + 58 ≤ x → x < 4096 * p + 64 → m' x = m x
  on : OnZero m' (4096 * p) runOn
  bits : ∀ j < 64, bitmapBit m' (4096 * p) j = Function.update (bitmapBit m (4096 * p)) i b j

/-- The run protocols keep the layout. -/
theorem HeapInv.evolves_run (h : HeapInv L w live) {m : Mem} {k i : ℕ} {b : Bool}
    (hp : L p = some (.run k)) (hws : L.Bodies ws)
    (hedit : RunEdit (Memory.storeWords w.nvm.mem ws) m p i b) : Evolves True L w.nvm.mem L m := by
  have hout := (hws.outside h.nvm.ok hp).eqOn w.nvm.mem
  have hset : L.set p (.run k) = L := by rw [Layout.set, ← hp, Function.update_eq_self]
  have hevolves := h.evolves_of_protocol hp (.same _) hws hedit.off fun ht => ?_
  · rwa [hset] at hevolves
  · show field m (4096 * p) runArenaIdF = _
    rw [field_keep hedit.keep (by decide), field_eqOn hout (by decide)]
    exact ht

/-- NVM, pools and VHeaders after the protocol of a run header. -/
theorem HeapInv.setRunHeader (h : HeapInv L w live) {m : Mem} {k i : ℕ} {b : Bool}
    (hp : L p = some (.run k)) (hedit : RunEdit w.nvm.mem m p i b) :
    NvmInv L { w.nvm with mem := m } ∧ PoolInv L (w.setMem m) ∧ RunsInv L (w.setMem m) := by
  obtain ⟨heq, hstate, hkeep, hon, -⟩ := hedit
  obtain ⟨hhdr, -, -⟩ : Quiet w.nvm.mem p (.run k) := h.nvm.quiet hp
  have hbytes : field m (4096 * p) nBytesF = field w.nvm.mem (4096 * p) nBytesF :=
    field_keep hkeep (by decide)
  have harena : field m (4096 * p) runArenaIdF = field w.nvm.mem (4096 * p) runArenaIdF :=
    field_keep hkeep (by decide)
  have hfits : (Tile.run k).Fits p := h.nvm.ok.fits hp
  refine ⟨?_, ?_, ⟨fun {q j} hq => ?_, h.runs.tile⟩⟩
  · have hset := h.nvm.setHeader (u := .run k) hp heq rfl hfits
      ⟨⟨hbytes ▸ hhdr.1, harena ▸ hhdr.2⟩, hstate, hon⟩ (by simp)
      (fun _ _ => by rw [field_keep hkeep (by decide)]; exact h.nvm.runVersion hp) (by simp)
      (fun _ hx => hx)
    rwa [Layout.set_eq_self hp] at hset
  · exact h.pool.congr (fun _ _ _ => Iff.rfl) (fun _ _ _ => Iff.rfl) (fun _ => rfl) rfl
  · obtain ⟨hlt, hof⟩ := h.runs.run hq
    refine ⟨hlt, ?_⟩
    by_cases hqp : q = p
    · subst hqp
      exact ⟨hof.nvmRun, by rw [setMem_nvm, hbytes]; exact hof.elemSize,
        by rw [setMem_nvm, harena]; exact hof.bin, hof.nMax,
        by rw [setMem_nvm, field_keep hkeep (by decide)]; exact hof.vdata⟩
    · exact hof.congr (h.nvm.ok.eqOn_header heq hp hq hqp) rfl rfl rfl rfl

/-- A small region becomes active. -/
theorem HeapInv.activateSlot (h : HeapInv L w live) {m : Mem} {k i : ℕ} {r : Region} (hr : r ∈ live)
    (hp : L p = some (.run k)) (hi : i < slotsPerRun (w.vheaders k).elemSize)
    (hptr : r.ptr = 4096 * p + 64 + (w.vheaders k).elemSize * i)
    (hedit : RunEdit w.nvm.mem m p i true) : HeapInv L (w.setMem m) (setActive r.ptr live) := by
  obtain ⟨hnvm, hpool, hruns⟩ := h.setRunHeader hp hedit
  have hslots := h.slots_le hp
  obtain ⟨hs, he, hbit, -⟩ := h.region_of_slot hr hp hi hptr
  have hbits := hedit.bits
  have hline : ∀ {q j}, L q = some (.run j) → q ≠ p → EqOn w.nvm.mem m (4096 * q) 64 :=
    fun hq hqp => h.nvm.ok.eqOn_header hedit.off hp hq hqp
  refine ⟨hnvm, hpool, hruns, h.live.activate (fun r' hr' => ?_) (fun _ _ b hq => ⟨b, hq⟩)
    (fun _ _ b hq => ⟨b, hq⟩) (fun _ _ hq => hq) fun q j i' hq hi' hb => ?_⟩
  · rcases mem_setActive.mp hr' with ⟨hne, hr'⟩ | ⟨r'', hr'', hptr'', rfl⟩
    · cases h.live.placed r' hr' with
      | @small hs q j i' htile he hi' hptr' hbit' hnvm' =>
        refine .small hs htile he hi' hptr' hbit' ?_
        rw [setMem_nvm]
        have hslots' := h.slots_le htile
        by_cases hqp : q = p
        · subst hqp
          rw [hp, Option.some.injEq, Tile.run.injEq] at htile
          subst htile
          have hii : i' ≠ i := by
            rintro rfl
            exact hne (hptr'.trans hptr.symm)
          rw [hbits i' (by omega), Function.update_of_ne hii]
          exact hnvm'
        · rw [bitmapBit_eqOn (hline htile hqp) (by omega)]
          exact hnvm'
      | large hlo hhi htile hptr' => exact .large hlo hhi htile hptr'
      | huge hlo htile hptr' => exact .huge hlo htile hptr'
    · obtain rfl : r'' = r := h.live.eq_of_ptr hr'' hr hptr''
      refine .small hs hp he hi hptr hbit ?_
      rw [setMem_nvm, hbits i (by omega), Function.update_self]
  · rw [setMem_nvm] at hb
    by_cases hqp : q = p
    · subst hqp
      rw [hp, Option.some.injEq, Tile.run.injEq] at hq
      subst hq
      rw [hbits i' hi'] at hb
      by_cases hii : i' = i
      · subst hii
        exact ⟨hi, hbit⟩
      · rw [Function.update_of_ne hii] at hb
        exact h.live.nvmBit hp hi' hb
    · rw [bitmapBit_eqOn (hline hq hqp) hi'] at hb
      exact h.live.nvmBit hq hi' hb

/-! ## `nvm_activate` -/

/-- The log after `log_activate`. -/
def activationLog (w : World) (ptr : ℕ) : ℕ → ℕ :=
  Function.update w.nvm.log (w.nextLogEntry % maxLogEntries) ptr

/-- A new log entry that names a tile. -/
theorem HeapInv.setLog (h : HeapInv L w live) {ptr : ℕ} (e : ℕ) (hx : Logged L ptr)
    (hhuge : ∀ q n o, L q = some (.huge n o) → ptr = 4096 * q + 64 →
      field w.nvm.mem (4096 * q) stateF ≠ usageHuge + stateInitializing) :
    HeapInv L { w with nvm := { w.nvm with log := activationLog w ptr }, nextLogEntry := e } live where
  nvm :=
    { h.nvm with
      log := fun i hi hne => by
        simp only [activationLog] at hne ⊢
        by_cases hie : i = w.nextLogEntry % maxLogEntries
        · rw [hie, Function.update_self]
          exact hx
        · rw [Function.update_of_ne hie] at hne ⊢
          exact h.nvm.log i hi hne
      logHuge := fun {q n o i} hq hi hnamed => by
        simp only [activationLog] at hnamed
        by_cases hie : i = w.nextLogEntry % maxLogEntries
        · rw [hie, Function.update_self] at hnamed
          exact hhuge q n o hq hnamed
        · rw [Function.update_of_ne hie] at hnamed
          exact h.nvm.logHuge hq hi hnamed }
  pool := h.pool.congr (fun _ _ _ => Iff.rfl) (fun _ _ _ => Iff.rfl) (fun _ => rfl) rfl
  runs := h.runs.congr (fun _ _ => Iff.rfl) (fun _ _ _ => EqOn.refl _ _ _) rfl rfl
  live := h.live

/-- What a crash inside `nvm_activate` can leave. -/
inductive ActivateImage (L : Layout) (w : World) (r : Region) (l1 l2 : Option Link) : Nvm → Prop where
  | start : ActivateImage L w r l1 l2 w.nvm
  | logged : ActivateImage L w r l1 l2 { w.nvm with log := activationLog w r.ptr }
  | huge {p n : ℕ} {m : Mem} (htile : L p = some (.huge n (.user false)))
      (hptr : r.ptr = 4096 * p + 64)
      (hprog : HdrProgress w.nvmStart w.nvm.mem (4096 * p) (usageHuge + stateActivating)
        (usageHuge + stateInitialized) l1 l2 m) :
      ActivateImage L w r l1 l2 { w.nvm with mem := m, log := activationLog w r.ptr }
  | large {p n : ℕ} {m : Mem} (htile : L p = some (.block n (.user false)))
      (hptr : r.ptr = 4096 * p + 64)
      (hprog : HdrProgress w.nvmStart w.nvm.mem (4096 * p) (usageBlock + stateActivating)
        (usageBlock + stateInitialized) l1 l2 m) :
      ActivateImage L w r l1 l2 { w.nvm with mem := m, log := activationLog w r.ptr }
  | small {p k i : ℕ} {m₀ m : Mem} (htile : L p = some (.run k))
      (hi : i < slotsPerRun (w.vheaders k).elemSize)
      (hptr : r.ptr = 4096 * p + 64 + (w.vheaders k).elemSize * i)
      (hm₀ : m₀ = store w.nvm.mem (4096 * p + stateF.off) stateF.width (usageRun + statePreactivate))
      (hprog : RunProgress w.nvmStart m₀ (4096 * p) (usageRun + stateActivating) i true l1 l2 m) :
      ActivateImage L w r l1 l2 { w.nvm with mem := m, log := activationLog w r.ptr }

/-- The part of `ProcInv` that activations and frees do not touch. -/
theorem ProcInv.of_heap {L' : Layout} {w' : World} (h : ProcInv L w live) (hheap : HeapInv L' w' live')
    (howned : L'.Owned) (hH : w'.vheaders = w.vheaders) (hn : w'.nVheaders = w.nVheaders)
    (hbin : w'.bin = w.bin) (hver : w'.currentVersion = w.currentVersion) : ProcInv L' w' live' where
  toHeapInv := hheap
  owned := howned
  bins := by
    rw [hH, hbin, hn]
    exact h.bins
  version := hver.trans h.version

/-- Activating a large or huge region. -/
theorem activateHeader_spec (h : ProcInv L w live) {r : Region} {u : Tile} {n committed final e : ℕ}
    {l1 l2 : Option Link} {C : Nvm → Prop} (hr : r ∈ live) (hptr : r.ptr = 4096 * p + 64)
    (hp : L p = some t) (h1 : LinkOk live l1) (h2 : LinkOk live l2)
    (hkind : (t = .block n (.user false) ∧ u = .block n (.user true) ∧
        final = usageBlock + stateInitialized) ∨
      (t = .huge n (.user false) ∧ u = .huge n (.user true) ∧ final = usageHuge + stateInitialized))
    (hcommitted : committed < 256)
    (hC : ∀ m, HdrProgress w.nvmStart w.nvm.mem (4096 * p) committed final l1 l2 m →
      C { w.nvm with mem := m, log := activationLog w r.ptr }) :
    Spec (commitHeader (4096 * p) committed final l1 l2) C
      (fun _ w' => ∃ L', ProcInv L' w' (setActive r.ptr live) ∧ Untouched w w' ∧
        Evolves True L w.nvm.mem L' w'.nvm.mem) (fun _ => False)
      { w with nvm := { w.nvm with log := activationLog w r.ptr }, nextLogEntry := e } := by
  have hbodies := h.live.linkWords w.nvmStart h1 h2
  set w₁ : World :=
    { w with nvm := { w.nvm with log := activationLog w r.ptr }, nextLogEntry := e } with hw₁
  have hfinal : final < 256 := by rcases hkind with ⟨-, -, rfl⟩ | ⟨-, -, rfl⟩ <;> decide
  change Spec _ _ _ _ (w₁.setMem w.nvm.mem)
  refine (commitHeader_spec (w := w₁) (h.link_inHeap h1) (h.link_inHeap h2)
    (hbodies.outside h.nvm.ok hp) hcommitted hfinal hC).imp ?_
  rintro _ _ ⟨m, rfl, hstage, hon⟩
  have h' := h.storeWords hbodies
  -- the fields of the header other than its state and links are as before
  have hfield : ∀ f : NvmField, 1 ≤ f.off → f.off + f.width ≤ 8 ∨ 40 ≤ f.off →
      f.off + f.width ≤ 64 → field m (4096 * p) f = field w.nvm.mem (4096 * p) f :=
    fun f hf hf' hf'' => field_congr fun x hx hx' => hstage.keep x (by omega) (by omega) (by omega)
  have hquiet : Quiet m p u := by
    have hq := h.nvm.quiet hp
    rcases hkind with ⟨rfl, rfl, rfl⟩ | ⟨rfl, rfl, rfl⟩
    · obtain ⟨hpages, harena, -, -⟩ := hq
      refine ⟨?_, ?_, hstage.state, fun _ => hon⟩
      · rw [hfield nPagesF (by decide) (by decide) (by decide), hpages]
      · rw [hfield blockArenaIdF (by decide) (by decide) (by decide)]
        exact harena
    · obtain ⟨hchunks, -, -⟩ := hq
      refine ⟨?_, hstage.state, fun _ => hon⟩
      rw [hfield nChunksF (by decide) (by decide) (by decide), hchunks]
  have hkind' : (∃ n, t = .block n (.user false) ∧ u = .block n (.user true)) ∨
      ∃ n, t = .huge n (.user false) ∧ u = .huge n (.user true) := by
    rcases hkind with ⟨ht, hu, -⟩ | ⟨ht, hu, -⟩
    · exact Or.inl ⟨n, ht, hu⟩
    · exact Or.inr ⟨n, ht, hu⟩
  have hne : t ≠ .arena := by rcases hkind with ⟨rfl, -, -⟩ | ⟨rfl, -, -⟩ <;> simp
  have hnames : Names r.ptr p u := by rcases hkind with ⟨-, rfl, -⟩ | ⟨-, rfl, -⟩ <;> exact hptr
  have hact := h'.activateTile hr hptr hp hstage.off hquiet hkind'
  have hfin := hact.setLog e ⟨p, u, Layout.set_self, hnames⟩ fun q n' o hq hx => ?_
  · have howned : u.Owned := by rcases hkind with ⟨-, rfl, -⟩ | ⟨-, rfl, -⟩ <;> trivial
    have hbecomes : t.Becomes u := by
      rcases hkind with ⟨rfl, rfl, -⟩ | ⟨rfl, rfl, -⟩
      · exact .block
      · exact .huge
    refine ⟨_, h.of_heap hfin (h.owned.set howned) rfl rfl rfl rfl, ⟨rfl, rfl, rfl,
      h.table_of_protocol hp hne hbodies hstage.off⟩,
      h.evolves_of_protocol hp hbecomes hbodies hstage.off fun ht => ?_⟩
    rcases hkind with ⟨rfl, rfl, -⟩ | ⟨rfl, rfl, -⟩
    · exact ht.block (hfield blockArenaIdF (by decide) (by decide) (by decide)) (by simp)
    · trivial
  · obtain rfl : q = p := by omega
    rcases hkind with ⟨-, rfl, -⟩ | ⟨-, rfl, rfl⟩
    · rw [Layout.set_self] at hq
      exact absurd hq (by simp)
    · show field m (4096 * q) stateF ≠ _
      rw [hstage.state]
      decide

/-- The slot of an address in a run. -/
theorem slot_index {h e i : ℕ} (he : 0 < e) : (h + e * i - h) / e = i := by
  rw [Nat.add_sub_cancel_left, Nat.mul_div_cancel_left _ he]

/-- The state byte of a run, acquired for one operation. -/
theorem acquireRun_spec {C : Nvm → Prop} {Q : Unit → World → Prop} {E : Stop → Prop} {h st : ℕ} {m : Mem}
    (hst : field m h stateF = usageRun + stateInitialized)
    (hrest : ∀ m', m' = store m (h + stateF.off) stateF.width st →
      C { w.nvm with mem := m' } ∧ Q () (w.setMem m')) : Spec (acquireRun h st) C Q E (w.setMem m) := by
  unfold acquireRun
  refine spec_loadField_then ?_
  rw [if_pos (show field (w.setMem m).nvm.mem h stateF = _ from hst), spec_storeField]
  exact hrest _ rfl

/-- Acquiring a run changes its state byte only. -/
theorem acquired_facts {m m' : Mem} {st : ℕ}
    (hm : m' = store m (4096 * p + stateF.off) stateF.width st) (hst : st < 256) :
    EqOff m m' (4096 * p) 1 ∧ field m' (4096 * p) stateF = st ∧
      ∀ j < 64, bitmapBit m' (4096 * p) j = bitmapBit m (4096 * p) j := by
  have heq : EqOff m m' (4096 * p) 1 :=
    hm ▸ (EqOff.refl _ _ _).store _ (by omega) (by simp only [stateF]; omega)
  refine ⟨heq, ?_, fun j hj => bitmapBit_congr (heq.eqOn (by omega)) hj⟩
  rw [hm, field_store_self]
  exact Nat.mod_eq_of_lt hst

/-- The end of a run protocol, seen from the memory before the run was acquired. -/
theorem RunStage.edit {m m₀ m' : Mem} {st i : ℕ} {b : Bool}
    (hs : RunStage m₀ (4096 * p) ws (usageRun + stateInitialized)
      (Function.update (bitmapBit m₀ (4096 * p)) i b) m') (hon : OnZero m' (4096 * p) runOn)
    (hm₀ : m₀ = store m (4096 * p + stateF.off) stateF.width st) (hst : st < 256)
    (hout : Outside ws (4096 * p) 64) : RunEdit (Memory.storeWords m ws) m' p i b := by
  obtain ⟨heq, -, hbits⟩ := acquired_facts hm₀ hst
  have hline := hout.eqOn m
  refine ⟨((heq.mono le_rfl (by omega)).storeWords ws).trans hs.off, hs.state,
    fun x hx hx' hx'' => ?_, hon,
    fun j hj => ?_⟩
  · rw [hs.keep x hx hx' hx'', heq x (by omega), hline x (by omega) (by omega)]
  · rw [hs.bits j hj]
    by_cases hji : j = i
    · rw [hji, Function.update_self, Function.update_self]
    · rw [Function.update_of_ne hji, Function.update_of_ne hji, hbits j hj, bitmapBit_eqOn hline hj]

/-- Activating a small region. -/
theorem nvmActivateSmall_spec (h : ProcInv L w live) {r : Region} {k i e : ℕ} {l1 l2 : Option Link}
    (hr : r ∈ live) (hp : L p = some (.run k)) (hi : i < slotsPerRun (w.vheaders k).elemSize)
    (hptr : r.ptr = 4096 * p + 64 + (w.vheaders k).elemSize * i) (h1 : LinkOk live l1)
    (h2 : LinkOk live l2) :
    Spec (nvmActivateSmall r.ptr (4096 * p) l1 l2) (ActivateImage L w r l1 l2)
      (fun _ w' => ∃ L', ProcInv L' w' (setActive r.ptr live) ∧ Untouched w w' ∧
        Evolves True L w.nvm.mem L' w'.nvm.mem) (fun _ => False)
      { w with nvm := { w.nvm with log := activationLog w r.ptr }, nextLogEntry := e } := by
  have hbodies := h.live.linkWords w.nvmStart h1 h2
  have hout := hbodies.outside h.nvm.ok hp
  have hslots := h.slots_le hp
  obtain ⟨c, -, helem⟩ := h.elemSize_runSize hp
  obtain ⟨-, hst, -⟩ : Quiet w.nvm.mem p (.run k) := h.nvm.quiet hp
  have hbytes : field w.nvm.mem (4096 * p) nBytesF = (w.vheaders k).elemSize :=
    (h.runs.run hp).2.elemSize.symm
  have hidx : (r.ptr - (4096 * p + headerSize)) / (w.vheaders k).elemSize % 2 ^ 16 = i := by
    rw [hptr, show 4096 * p + headerSize = 4096 * p + 64 from rfl, slot_index (by omega)]
    omega
  set w₁ : World :=
    { w with nvm := { w.nvm with log := activationLog w r.ptr }, nextLogEntry := e } with hw₁
  unfold nvmActivateSmall
  refine spec_loadField_then ?_
  rw [show field w₁.nvm.mem (4096 * p) nBytesF = (w.vheaders k).elemSize from hbytes,
    if_neg (by omega), hidx]
  change Spec _ _ _ _ (w₁.setMem w.nvm.mem)
  refine spec_bind.mpr (acquireRun_spec hst fun m₀ hm₀ => ?_)
  refine ⟨.small hp hi hptr hm₀ (.before ⟨EqOff.refl _ _ _, rfl, fun _ _ _ _ => rfl,
    fun _ _ => rfl⟩), ?_⟩
  refine (commitRun_spec (w := w₁) (setNvmBit_marks (by omega)) (by omega) (h.link_inHeap h1)
    (h.link_inHeap h2) hout (by decide) fun m hm => .small hp hi hptr hm₀ hm).imp ?_
  rintro _ _ ⟨m, rfl, hstage, hon⟩
  have hedit := hstage.edit hon hm₀ (by decide) hout
  have hact := (h.storeWords hbodies).activateSlot hr hp hi hptr hedit
  have hend := slot_end_le hi
  have hfin := hact.setLog e ⟨p, _, hp, (⟨by omega, by omega⟩ : Names r.ptr p (.run k))⟩
    fun q n o hq hx => ?_
  · exact ⟨L, h.of_heap hfin h.owned rfl rfl rfl rfl, ⟨rfl, rfl, rfl,
      h.table_of_protocol hp (by simp) hbodies hedit.off⟩, h.evolves_run hp hbodies hedit⟩
  · have hpage := h.page_of_slot hp hi hptr
    obtain rfl : q = p := by omega
    rw [hp] at hq
    exact absurd hq (by simp)

/-- How a call tells the header protocol of a huge region. -/
theorem HeapInv.huge_ptr (h : HeapInv L w live) {n ptr : ℕ} {o : Owner} (hp : L p = some (.huge n o))
    (hptr : ptr = 4096 * p + 64) : ptr % chunkSize = headerSize ∧ ptr - headerSize = 4096 * p := by
  have hfits : (Tile.huge n o).Fits p := h.nvm.ok.fits hp
  simp only [Tile.Fits] at hfits
  simp only [chunkSize, headerSize]
  omega

/-- How a call tells the header protocol of a large region. -/
theorem HeapInv.large_ptr (h : HeapInv L w live) {n ptr : ℕ} {o : Owner} (hp : L p = some (.block n o))
    (hptr : ptr = 4096 * p + 64) :
    ptr % chunkSize ≠ headerSize ∧ ptr / blockSize * blockSize = 4096 * p := by
  have hfits : (Tile.block n o).Fits p := h.nvm.ok.fits hp
  have := hfits.1
  simp only [chunkSize, headerSize, blockSize]
  omega

/-- How a call tells the header protocol of a small region. -/
theorem HeapInv.small_ptr (h : HeapInv L w live) {k i ptr : ℕ} (hp : L p = some (.run k))
    (helem : 64 ≤ (w.vheaders k).elemSize) (hi : i < slotsPerRun (w.vheaders k).elemSize)
    (hptr : ptr = 4096 * p + 64 + (w.vheaders k).elemSize * i) :
    ptr % chunkSize ≠ headerSize ∧ ptr / blockSize * blockSize = 4096 * p := by
  have hfits : (Tile.run k).Fits p := h.nvm.ok.fits hp
  simp only [Tile.Fits] at hfits
  have hend := slot_end_le hi
  constructor
  · simp only [chunkSize, headerSize]
    omega
  · rw [hptr, show (4096 * p + 64 + (w.vheaders k).elemSize * i) / blockSize = p from slot_page helem hi,
      Nat.mul_comm]
    rfl

/-- **`nvm_activate`** on a reserved region: it returns, the region becomes active, and a crash inside it
leaves one of the images of `ActivateImage`. -/
theorem nvmActivate_spec (h : ProcInv L w live) {r : Region} {l1 l2 : Option Link} (hr : r ∈ live)
    (hactive : r.active = false) (h1 : LinkOk live l1) (h2 : LinkOk live l2) :
    Spec (nvmActivate r.ptr l1 l2) (ActivateImage L w r l1 l2)
      (fun _ w' => ∃ L', ProcInv L' w' (setActive r.ptr live) ∧ Untouched w w' ∧
        Evolves True L w.nvm.mem L' w'.nvm.mem) (fun _ => False) w := by
  unfold nvmActivate logActivate
  simp only [spec_bind, spec_get, spec_modify, spec_storeLog, spec_persistMeta]
  refine ⟨.logged, ?_⟩
  change Spec _ _ _ _ { w with
    nvm := { w.nvm with log := activationLog w r.ptr }
    nextLogEntry := (w.nextLogEntry + 1) % 2 ^ 64 }
  cases h.live.placed r hr with
  | @huge hlo p htile hptr =>
    rw [hactive] at htile
    obtain ⟨hmod, hh⟩ := h.huge_ptr htile hptr
    rw [if_pos hmod, hh]
    exact activateHeader_spec h hr hptr htile h1 h2 (Or.inr ⟨rfl, rfl, rfl⟩) (by decide)
      fun m hm => .huge htile hptr hm
  | @large hlo hhi p htile hptr =>
    rw [hactive] at htile
    obtain ⟨-, -, hst, -⟩ := h.nvm.quiet htile
    obtain ⟨hmod, hpage⟩ := h.large_ptr htile hptr
    rw [if_neg hmod]
    simp only [hpage]
    refine spec_loadField_then ?_
    rw [if_pos]
    · exact activateHeader_spec h hr hptr htile h1 h2 (Or.inl ⟨rfl, rfl, rfl⟩) (by decide)
        fun m hm => .large htile hptr hm
    · show getUsage (field w.nvm.mem (4096 * p) stateF) = usageFree
      rw [hst]
      rfl
  | @small hsize p k i htile helem hi hptr hbit hnvm =>
    obtain ⟨-, hst, -⟩ : Quiet w.nvm.mem p (.run k) := h.nvm.quiet htile
    obtain ⟨hmod, hpage⟩ := h.small_ptr htile (le_elemSize (h.live.size r hr).1 helem) hi hptr
    rw [if_neg hmod]
    simp only [hpage]
    refine spec_loadField_then ?_
    rw [if_neg]
    · exact nvmActivateSmall_spec h hr htile hi hptr h1 h2
    · show getUsage (field w.nvm.mem (4096 * p) stateF) ≠ usageFree
      rw [hst]
      decide

/-! ## The images of an activation -/

/-- The stage of a header protocol, whatever its progress. -/
theorem HdrProgress.stage {nvmStart : ℕ} {m₀ m : Mem} {h committed final : ℕ} {l1 l2 : Option Link}
    (hprog : HdrProgress nvmStart m₀ h committed final l1 l2 m) :
    ∃ ws st, ws <+: linkWords nvmStart l1 l2 ∧ HdrStage m₀ h ws st m ∧
      (st = field m₀ h stateF ∨ st = committed ∨ st = final) := by
  cases hprog with
  | before hstage => exact ⟨[], _, List.nil_prefix, hstage, Or.inl rfl⟩
  | committed _ hws hstage => exact ⟨_, _, hws, hstage, Or.inr (Or.inl rfl)⟩
  | final hstage => exact ⟨_, _, List.prefix_refl _, hstage, Or.inr (Or.inr rfl)⟩

/-- The stage of a run protocol, whatever its progress. -/
theorem RunProgress.stage {nvmStart : ℕ} {m₀ m : Mem} {h committed i : ℕ} {b : Bool}
    {l1 l2 : Option Link} (hprog : RunProgress nvmStart m₀ h committed i b l1 l2 m) :
    ∃ ws st bits, ws <+: linkWords nvmStart l1 l2 ∧ RunStage m₀ h ws st bits m ∧
      (st = field m₀ h stateF ∨ st = committed ∧ field m h bitIdxF = i ∨
        st = usageRun + stateInitialized) ∧
      (bits = bitmapBit m₀ h ∨ bits = Function.update (bitmapBit m₀ h) i b) := by
  cases hprog with
  | before hstage => exact ⟨[], _, _, List.nil_prefix, hstage, Or.inl rfl, Or.inl rfl⟩
  | committed _ hws hstage hbits hidx _ =>
    exact ⟨_, _, _, hws, hstage, Or.inr (Or.inl ⟨rfl, hidx⟩), hbits⟩
  | marked hlink hstage => exact ⟨[], _, _, List.nil_prefix, hstage, Or.inl rfl, Or.inr rfl⟩
  | final hstage =>
    exact ⟨_, _, _, List.prefix_refl _, hstage, Or.inr (Or.inr rfl), Or.inr rfl⟩

/-- A crash inside the protocol of a large or huge region. -/
theorem HeapInv.image_of_hdrProgress (h : HeapInv L w live) {m : Mem} {log : ℕ → ℕ} {n : ℕ} {o : Owner}
    {committed final : ℕ} {l1 l2 : Option Link} (hp : L p = some t)
    (hbodies : L.Bodies (linkWords w.nvmStart l1 l2))
    (hprog : HdrProgress w.nvmStart w.nvm.mem (4096 * p) committed final l1 l2 m)
    (hkind : (t = .block n o ∧ (committed = usageBlock + stateActivating ∨
          committed = usageBlock + stateFreeing) ∧
        (final = usageBlock + stateInitialized ∨ final = usageFree + stateInitialized)) ∨
      (t = .huge n o ∧ (committed = usageHuge + stateActivating ∨
          committed = usageHuge + stateFreeing) ∧
        (final = usageHuge + stateInitialized ∨ final = usageFree + stateInitialized)))
    (hlog : ∀ i < maxLogEntries, log i ≠ 0 → Logged L (log i)) (hlive : ∀ r ∈ live', r ∈ live)
    (hkept : ∀ r ∈ live', r.active = true → r.ptr / 4096 ≠ p)
    (hold : ∀ i < maxLogEntries, log i = w.nvm.log i ∨ log i / 4096 = p)
    (hfresh : ∀ n o, t = .huge n o →
      field w.nvm.mem (4096 * p) stateF = usageHuge + stateInitializing → B.fresh)
    (hstale : l1.isSome → l2 = none → field w.nvm.mem (4096 * p) (onPtrF blockOn 1) ≠ 0 → B.stale)
    (hlinks : B.links = linkWords w.nvmStart l1 l2) :
    ImgInv L p { w.nvm with mem := m, log := log } ∧ Kept live' L m ∧
      Blames B L { w.nvm with mem := m, log := log } := by
  have hwords : Pending m p →
      B.stale ∨ recordedWords m (4096 * p) t.on = B.links ∧ L.Bodies B.links := by
    intro hpend
    have hon : t.on = blockOn := by rcases hkind with ⟨rfl, -⟩ | ⟨rfl, -⟩ <;> rfl
    rw [hon]
    cases hprog with
    | before hstage =>
      unfold Pending at hpend
      rw [hstage.state] at hpend
      exact absurd hpend (h.nvm.quiet hp).settled.not_pending
    | committed hlink _ _ hrec =>
      by_cases hold : l2 = none ∧ field w.nvm.mem (4096 * p) (onPtrF blockOn 1) ≠ 0
      · exact Or.inl (hstale hlink hold.1 hold.2)
      · right
        rw [hrec fun hl2 => by_contra fun hne => hold ⟨hl2, hne⟩, hlinks]
        exact ⟨rfl, hbodies⟩
    | final hstage =>
      unfold Pending at hpend
      rw [hstage.state] at hpend
      rcases hkind with ⟨-, -, rfl | rfl⟩ | ⟨-, -, rfl | rfl⟩ <;> exact absurd hpend (by decide)
  obtain ⟨ws, st, hpre, hstage, hst⟩ := hprog.stage
  refine h.image hp (hbodies.of_prefix hpre) hstage.off ?_ ?_ hlog hlive
    (fun r hr hactive hpage => absurd hpage (hkept r hr hactive)) hold (fun n' o' ht => ?_) ?_
    (fun n' o' ht hstate => ?_) hwords
  · have hhdr := (h.nvm.quiet hp).hdrOk
    have hstate := hstage.state
    rcases hkind with ⟨rfl, hcom, hfin⟩ | ⟨rfl, hcom, hfin⟩
    · obtain ⟨hpages, harena, hold⟩ := hhdr
      refine ⟨?_, ?_, ?_⟩
      · rw [hstage.field_eq (by decide), hpages]
      · rw [hstage.field_eq (by decide)]
        exact harena
      · rw [hstate]
        rcases hst with rfl | rfl | rfl
        · exact hold
        · rcases hcom with rfl | rfl <;> simp
        · rcases hfin with rfl | rfl <;> simp
    · obtain ⟨hchunks, hold⟩ := hhdr
      refine ⟨?_, ?_⟩
      · rw [hstage.field_eq (by decide), hchunks]
      · rw [hstate]
        rcases hst with rfl | rfl | rfl
        · exact hold
        · rcases hcom with rfl | rfl <;> simp
        · rcases hfin with rfl | rfl <;> simp
  · rcases hkind with ⟨rfl, -⟩ | ⟨rfl, -⟩ <;> simp
  · rw [hstage.state]
    rcases hkind with ⟨rfl, hcom, hfin⟩ | ⟨rfl, -, -⟩
    · rcases hst with rfl | rfl | rfl
      · exact ⟨(h.nvm.quiet hp).state_ne_zero, (h.nvm.quiet hp).state_ne_initializing⟩
      · rcases hcom with rfl | rfl <;> decide
      · rcases hfin with rfl | rfl <;> decide
    · exact absurd ht (by simp)
  · rcases hkind with ⟨rfl, -⟩ | ⟨rfl, -⟩ <;> simp
  · rw [hstage.state] at hstate
    rcases hkind with ⟨rfl, -, -⟩ | ⟨rfl, hcom, hfin⟩
    · exact absurd ht (by simp)
    · rcases hst with rfl | rfl | rfl
      · exact hfresh n' o' ht hstate
      · rcases hcom with rfl | rfl <;> exact absurd hstate (by decide)
      · rcases hfin with rfl | rfl <;> exact absurd hstate (by decide)

/-- A crash inside the protocol of a small region. -/
theorem HeapInv.image_of_runProgress (h : HeapInv L w live) {m₀ m : Mem} {log : ℕ → ℕ} {k i : ℕ}
    {b : Bool} {pre committed : ℕ} {l1 l2 : Option Link} (hp : L p = some (.run k))
    (hi : i < slotsPerRun (w.vheaders k).elemSize)
    (hbodies : L.Bodies (linkWords w.nvmStart l1 l2))
    (hm₀ : m₀ = store w.nvm.mem (4096 * p + stateF.off) stateF.width pre)
    (hprog : RunProgress w.nvmStart m₀ (4096 * p) committed i b l1 l2 m)
    (hpre : pre = usageRun + statePreactivate ∨ pre = usageRun + statePrefree)
    (hcommitted : committed = usageRun + stateActivating ∨ committed = usageRun + stateFreeing)
    (hlog : ∀ i < maxLogEntries, log i ≠ 0 → Logged L (log i)) (hlive : ∀ r ∈ live', r ∈ live)
    (hsep : (b = true ∧ committed = usageRun + stateActivating) ∨
      ∀ r ∈ live', r.ptr ≠ 4096 * p + 64 + (w.vheaders k).elemSize * i)
    (hold : ∀ i < maxLogEntries, log i = w.nvm.log i ∨ log i / 4096 = p)
    (hlinks : B.links = linkWords w.nvmStart l1 l2) :
    ImgInv L p { w.nvm with mem := m, log := log } ∧ Kept live' L m ∧
      Blames B L { w.nvm with mem := m, log := log } := by
  have hpre256 : pre < 256 := by rcases hpre with rfl | rfl <;> decide
  obtain ⟨heq₀, hst₀, hbits₀⟩ := acquired_facts hm₀ hpre256
  have hwords : Pending m p →
      recordedWords m (4096 * p) runOn = B.links ∧ L.Bodies B.links := by
    intro hpend
    have hnot : ∀ {st}, field m (4096 * p) stateF = st →
        st = pre ∨ st = usageRun + stateInitialized →
        recordedWords m (4096 * p) runOn = B.links ∧ L.Bodies B.links := by
      intro st hst hkind
      unfold Pending at hpend
      rw [hst] at hpend
      rcases hkind with rfl | rfl
      · rcases hpre with rfl | rfl <;> exact absurd hpend (by decide)
      · exact absurd hpend (by decide)
    cases hprog with
    | before hstage => exact hnot hstage.state (Or.inl hst₀)
    | committed _ _ _ _ _ hrec =>
      rw [hrec fun _ => ?_, hlinks]
      · exact ⟨rfl, hbodies⟩
      · have hon : OnZero w.nvm.mem (4096 * p) runOn := (h.nvm.quiet hp).2.2
        rw [hm₀, field_store_of_ne (by decide)]
        exact hon.onPtr (by omega)
    | marked _ hstage => exact hnot hstage.state (Or.inl hst₀)
    | final hstage => exact hnot hstage.state (Or.inr rfl)
  obtain ⟨ws, st, bits, hws, hstage, hst, hbits⟩ := hprog.stage
  have hslots := h.slots_le hp
  have hkeep : ∀ x, 4096 * p + 1 ≤ x → x < 4096 * p + 16 ∨ 4096 * p + 58 ≤ x → x < 4096 * p + 64 →
      m x = w.nvm.mem x := by
    intro x hx hx' hx''
    rw [hstage.keep x hx hx' hx'', heq₀ x (by omega)]
  obtain ⟨hhdr, -, -⟩ : Quiet w.nvm.mem p (.run k) := h.nvm.quiet hp
  have hbytes : field m (4096 * p) nBytesF = field w.nvm.mem (4096 * p) nBytesF :=
    field_keep hkeep (by decide)
  have helem : field w.nvm.mem (4096 * p) nBytesF = (w.vheaders k).elemSize :=
    (h.runs.run hp).2.elemSize.symm
  have harena : field m (4096 * p) runArenaIdF = field w.nvm.mem (4096 * p) runArenaIdF :=
    field_keep hkeep (by decide)
  -- the transient states that use the bit index come with the right one
  have hidx : field m (4096 * p) stateF = usageRun + stateFreeing ∨
      field m (4096 * p) stateF = usageRun + stateActivating → field m (4096 * p) bitIdxF = i := by
    intro hstate
    rw [hstage.state] at hstate
    rcases hst with rfl | ⟨-, hidx⟩ | rfl
    · rw [hst₀] at hstate
      rcases hpre with rfl | rfl <;> exact absurd hstate (by decide)
    · exact hidx
    · exact absurd hstate (by decide)
  refine h.image hp (hbodies.of_prefix hws) ?_ ?_ ?_ hlog hlive (fun r hr hactive hpage => ?_) hold
    (by simp) (by simp) (by simp) fun hpend => Or.inr (hwords hpend)
  · exact ((heq₀.mono le_rfl (by omega)).storeWords ws).trans hstage.off
  · refine ⟨⟨hbytes ▸ hhdr.1, harena ▸ hhdr.2⟩, ?_, fun hstate => ?_⟩
    · rw [hstage.state]
      rcases hst with rfl | ⟨rfl, -⟩ | rfl
      · rw [hst₀]
        rcases hpre with rfl | rfl <;> simp
      · rcases hcommitted with rfl | rfl <;> simp
      · simp
    · rw [hidx hstate, hbytes, helem]
      exact hi
  · exact fun _ _ => by rw [field_keep hkeep (by decide)]; exact h.nvm.runVersion hp
  · -- the other slots of the run keep their bits
    obtain ⟨hs, he, j, hj, hptr, -, hbit⟩ := h.live.of_run_page (hlive r hr) hp hpage
    have hji : (b = true ∧ committed = usageRun + stateActivating) ∨ j ≠ i := by
      rcases hsep with hsep | hsep
      · exact Or.inl hsep
      · refine Or.inr ?_
        rintro rfl
        exact hsep r hr hptr
    refine .small hs hp ?_ (he ▸ hj) (he ▸ hptr) ?_ fun hstate => ?_
    · rw [hbytes, helem, he]
    · have hold : bitmapBit m₀ (4096 * p) j = true := by
        rw [hbits₀ j (by omega), hbit, hactive]
      rw [hstage.bits j (by omega)]
      rcases hbits with rfl | rfl
      · exact hold
      · by_cases hji' : j = i
        · rcases hji with ⟨rfl, -⟩ | hne
          · rw [hji', Function.update_self]
          · exact absurd hji' hne
        · rw [Function.update_of_ne hji', hold]
    · rcases hji with ⟨-, rfl⟩ | hne
      · rw [hstage.state] at hstate
        rcases hst with rfl | ⟨rfl, -⟩ | rfl
        · rw [hst₀] at hstate
          rcases hpre with rfl | rfl <;> exact absurd hstate (by decide)
        · exact absurd hstate (by decide)
        · exact absurd hstate (by decide)
      · rw [hidx (Or.inl hstate)]
        exact Ne.symm hne

/-- A log entry for an outstanding region. -/
theorem HeapInv.logged_ptr (h : HeapInv L w live) {r : Region} (hr : r ∈ live) : Logged L r.ptr := by
  cases h.live.placed r hr with
  | @small hs p k i htile helem hi hptr hbit hnvm =>
    have hend := slot_end_le hi
    have helem64 := le_elemSize (h.live.size r hr).1 helem
    exact ⟨p, _, htile, (⟨by omega, by omega⟩ : Names r.ptr p (.run k))⟩
  | large _ _ htile hptr => exact ⟨_, _, htile, hptr⟩
  | huge _ htile hptr => exact ⟨_, _, htile, hptr⟩

theorem HeapInv.logged_activationLog (h : HeapInv L w live) {r : Region} (hr : r ∈ live) :
    ∀ i < maxLogEntries, activationLog w r.ptr i ≠ 0 → Logged L (activationLog w r.ptr i) := by
  intro i hi hne
  unfold activationLog at hne ⊢
  by_cases hie : i = w.nextLogEntry % maxLogEntries
  · rw [hie, Function.update_self]
    exact h.logged_ptr hr
  · rw [Function.update_of_ne hie] at hne ⊢
    exact h.nvm.log i hi hne

/-- An old second link in the header of a large or huge region. -/
theorem HeapInv.staleLink (h : HeapInv L w live) {ptr : ℕ} {l1 l2 : Option Link} (hp : L p = some t)
    (hptr : ptr = 4096 * p + 64) (hrun : ∀ k, t ≠ .run k) (h1 : l1.isSome) (h2 : l2 = none)
    (hon : field w.nvm.mem (4096 * p) (onPtrF blockOn 1) ≠ 0) : StaleLink w ptr l1 l2 := by
  have hquiet := h.nvm.quiet hp
  have hpage : ptr / blockSize * blockSize = 4096 * p := by
    simp only [blockSize]
    omega
  have husage := (hquiet.hdrOk.usage fun k hk => by subst hk; exact hquiet).2
  refine ⟨h1, h2, ?_, ?_⟩
  · rw [hpage]
    intro hu
    obtain ⟨k, hk⟩ := husage.mp hu
    exact hrun k hk
  · rwa [hpage]

/-- Every image of an activation keeps the layout and the active regions. -/
theorem ActivateImage.image (h : HeapInv L w live) {r : Region} {l1 l2 : Option Link} {img : Nvm}
    (hr : r ∈ live) (hactive : r.active = false) (h1 : LinkOk live l1) (h2 : LinkOk live l2)
    (hfresh : FreshHuge w r.ptr → B.fresh) (hstale : StaleLink w r.ptr l1 l2 → B.stale)
    (hlinks : B.links = linkWords w.nvmStart l1 l2) (himg : ActivateImage L w r l1 l2 img) :
    ImgInv L (r.ptr / 4096) img ∧ Kept live L img.mem ∧ Blames B L img := by
  have hbodies := h.live.linkWords w.nvmStart h1 h2
  have hlog := h.logged_activationLog hr
  -- the region on the page of a large or huge region is the one being activated
  have hkept : ∀ {p}, r.ptr = 4096 * p + 64 → (∀ k, L p ≠ some (.run k)) →
      ∀ r' ∈ live, r'.active = true → r'.ptr / 4096 ≠ p := by
    intro p hptr hrun r' hr' hactive' hpage
    rcases (h.live.placed r' hr').cases_tile (h.live.size r' hr').1 with
      ⟨q, k, i, hq, hqpage, -⟩ | ⟨q, u, hq, hqpage, -, -, hptr'⟩
    · exact hrun k (by rwa [← hqpage, hpage] at hq)
    · obtain rfl : r' = r := h.live.eq_of_ptr hr' hr (by omega)
      rw [hactive] at hactive'
      exact absurd hactive' (by simp)
  have hold : ∀ i < maxLogEntries, activationLog w r.ptr i = w.nvm.log i ∨
      activationLog w r.ptr i = r.ptr := by
    intro i _
    unfold activationLog
    by_cases hie : i = w.nextLogEntry % maxLogEntries
    · exact Or.inr (by rw [hie, Function.update_self])
    · exact Or.inl (by rw [Function.update_of_ne hie])
  have hpage : ∀ {p}, r.ptr / 4096 = p → ∀ i < maxLogEntries,
      activationLog w r.ptr i = w.nvm.log i ∨ activationLog w r.ptr i / 4096 = p :=
    fun hp i hi => (hold i hi).imp_right fun hx => by rw [hx, hp]
  have hfresh' : ∀ {q n o}, L q = some (.huge n o) → r.ptr = 4096 * q + 64 →
      field w.nvm.mem (4096 * q) stateF = usageHuge + stateInitializing → B.fresh := by
    intro q n o hq hptr hst
    have hfits : (Tile.huge n o).Fits q := h.nvm.ok.fits hq
    simp only [Tile.Fits] at hfits
    refine hfresh ⟨?_, ?_⟩
    · simp only [chunkSize, headerSize]
      omega
    · rw [hptr]
      exact hst
  cases himg with
  | start => exact ⟨h.nvm.imgInv _, h.kept, h.nvm.blames B⟩
  | logged =>
    have hblames := h.nvm.blames B
    refine ⟨?_, h.kept, fun hq => absurd (h.nvm.quiet hq) id,
      fun hq hst => absurd hst (h.nvm.quiet hq).state_ne_zero,
      fun {q n o i} hq hi hnamed hst => ?_, hblames.words⟩
    · exact { h.nvm.imgInv _ with
        log := hlog
        stuckLog := fun hq => absurd (h.nvm.quiet hq) id
        initial := fun hq hst => absurd hst (h.nvm.quiet hq).state_ne_initializing }
    · have hnamed' : activationLog w r.ptr i = 4096 * q + 64 := hnamed
      rcases hold i hi with hx | hx
      · exact hblames.fresh hq hi (hx.symm.trans hnamed') hst
      · exact hfresh' hq (hx.symm.trans hnamed') hst
  | @huge p n m htile hptr hprog =>
    have hdiv : r.ptr / 4096 = p := by omega
    rw [hdiv]
    exact h.image_of_hdrProgress htile hbodies hprog (Or.inr ⟨rfl, Or.inl rfl, Or.inl rfl⟩) hlog
      (fun _ hr => hr) (hkept hptr (by simp [htile])) (hpage hdiv)
      (fun n' o' _ hst => hfresh' htile hptr hst)
      (fun h1 h2 hon => hstale (h.staleLink htile hptr (by simp) h1 h2 hon)) hlinks
  | @large p n m htile hptr hprog =>
    have hdiv : r.ptr / 4096 = p := by omega
    rw [hdiv]
    exact h.image_of_hdrProgress htile hbodies hprog (Or.inl ⟨rfl, Or.inl rfl, Or.inl rfl⟩) hlog
      (fun _ hr => hr) (hkept hptr (by simp [htile])) (hpage hdiv) (by simp)
      (fun h1 h2 hon => hstale (h.staleLink htile hptr (by simp) h1 h2 hon)) hlinks
  | @small p k i m₀ m htile hi hptr hm₀ hprog =>
    have hdiv := h.page_of_slot htile hi hptr
    rw [hdiv]
    exact h.image_of_runProgress htile hi hbodies hm₀ hprog (Or.inl rfl) (Or.inl rfl) hlog
      (fun _ hr => hr) (Or.inl ⟨rfl, rfl⟩) (hpage hdiv) hlinks

end NvmMalloc
