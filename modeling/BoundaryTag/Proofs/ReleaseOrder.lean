/-
  BoundaryTag.Proofs.ReleaseOrder — blocks may be released in any order.

  Each release merges with what is free around it by then, so on the way the rows differ. But
  what a release does to the allocated blocks is to leave out one of them, and a row without
  touching free blocks is determined by its allocated ones.

  Proved: releasing the same blocks in two orders gives the same blocks and the same buckets, up
  to the order in a bucket; and when nothing is left, one free block lies between prologue and
  epilogue (`Run.releases_commute`).
-/

import BoundaryTag.Proofs.WellFormed

namespace BoundaryTag

/-- The address that the call releases, with either operation. -/
def Call.frees : Call → Option Nat
  | .release addr | .tryRelease addr => some addr
  | _ => none

/-- One free block between prologue and epilogue. -/
def bare (first high : Nat) : List Tile := [⟨first, ⟨high - first, true, false⟩⟩]

variable {A : Type} [Arena A] [LawfulArena A] {h h' : Heap A} {row row' : List Tile}
  {idx idx' : Index} {e : Entry} {ps : List Nat}

/-- Blocks and epilogue of a row are determined by it. -/
theorem append_epilogue_inj {ts ts' : List Tile} {a b : Nat} {q q' : Bool}
    (h : ts ++ [⟨a, ⟨0, q, true⟩⟩] = ts' ++ [⟨b, ⟨0, q', true⟩⟩]) :
    ts = ts' ∧ q = q' := by
  obtain ⟨hts, hlast⟩ := List.append_inj' h rfl
  injection hlast with hlast
  injection hlast with _ htag
  injection htag with _ hq
  exact ⟨hts, hq⟩

namespace Heap

theorem frees_live (hl : Laid h row idx) (hc : h.Checkable) (he : e ∈ live row) {c : Call}
    (hcall : c.frees = some e.bp) :
    ∃ h' row' idx', attempt c.perform h = .ok (.ok none) h' ∧ Laid h' row' idx' ∧
      Released h h' row row' e.bp := by
  cases c with
  | release addr =>
    obtain rfl : addr = e.bp := Option.some.inj hcall
    obtain ⟨h', row', idx', hrun, hl', hr⟩ := release_live hl he
    have hrun : Answers (Call.release e.bp).perform h none h' := hrun.bind rfl
    exact ⟨h', row', idx', hrun.attempt.run (hr.later.checkable hr.bounds hc), hl', hr⟩
  | tryRelease addr =>
    obtain rfl : addr = e.bp := Option.some.inj hcall
    obtain ⟨h', row', idx', hrun, hl', hr⟩ := tryRelease_live hl he
    have hrun : Answers (Call.tryRelease e.bp).perform h none h' := hrun.bind rfl
    exact ⟨h', row', idx', hrun.attempt.run (hr.later.checkable hr.bounds hc), hl', hr⟩
  | _ => cases hcall

/-- Releasing live blocks, one after the other, leaves them all out. -/
theorem run_frees (hl : Laid h row idx) (hc : h.Checkable) {cs : List Call} {ps : List Nat}
    (hcs : cs.map Call.frees = ps.map some) (hn : ps.Nodup)
    (hlive : ∀ p ∈ ps, ∃ e ∈ live row, e.bp = p) :
    ∃ h' row' idx', Call.run cs h = .ok (cs.map fun _ => .ok none) h' ∧
      Laid h' row' idx' ∧ Later h h' ∧
      h'.bounds = h.bounds ∧ held row' = (held row).filter fun e => e.bp ∉ ps := by
  -- the rows differ from order to order; what goes through is which tiles are allocated
  induction cs generalizing h row idx ps with
  | nil =>
    obtain rfl : ps = [] := by simpa using hcs.symm
    exact ⟨h, row, idx, rfl, hl, Later.refl h, rfl, by simp⟩
  | cons c cs ih =>
    cases ps with
    | nil => cases hcs
    | cons p ps =>
      obtain ⟨hfirst, hrest⟩ := List.cons.inj hcs
      obtain ⟨hnew, hn'⟩ := List.nodup_cons.mp hn
      obtain ⟨e, he, rfl⟩ := hlive p List.mem_cons_self
      obtain ⟨h₁, row₁, idx₁, hrun₁, hl₁, hr⟩ := frees_live hl hc he hfirst
      obtain ⟨h', row', idx', hrun, hl', hlater, hbounds, hheld⟩ :=
        ih hl₁ (hr.later.checkable hr.bounds hc) hrest hn' fun q hq => by
        obtain ⟨f, hf, rfl⟩ := hlive q (List.mem_cons_of_mem _ hq)
        refine ⟨f, ?_, rfl⟩
        rw [live_without hr.held, List.mem_filter, bne_iff_ne]
        exact ⟨hf, fun hbp => hnew (hbp ▸ hq)⟩
      refine ⟨h', row', idx', ?_, hl', hr.later.trans hlater, hbounds.trans hr.bounds, ?_⟩
      · simp only [Call.run, HeapM.bind_apply, hrun₁, hrun, HeapM.pure_apply, List.map_cons]
      · rw [hheld, hr.held, List.filter_filter]
        refine List.filter_congr fun f _ => Bool.eq_iff_iff.mpr ?_
        simp only [Bool.and_eq_true, decide_eq_true_eq, bne_iff_ne, List.mem_cons, not_or, and_comm]

/-- What is left when everything is released. -/
theorem live_filter_nil (hheld : held row' = (held row).filter fun e => e.bp ∉ ps)
    (hall : ∀ e ∈ live row, e.bp ∈ ps) : live row' = [] := by
  apply List.eq_nil_iff_forall_not_mem.mpr
  intro e he
  obtain ⟨hin, hsize⟩ := mem_live.mp he
  rw [hheld, List.mem_filter, decide_eq_true_eq] at hin
  exact hin.2 (hall e (mem_live.mpr ⟨hin.1, hsize⟩))

/-- The same allocated tiles over the same space, the same blocks. -/
theorem Laid.row_unique (hl : Laid h row idx) (hl' : Laid h' row' idx')
    (hprologue : h'.prologue = h.prologue) (hbounds : h'.bounds = h.bounds)
    (hheld : held row' = held row) : row' = row := by
  have hrow' := hl'.tiled.row
  rw [firstBlock, hprologue, hbounds, ← firstBlock] at hrow'
  exact hrow'.eq_of_held_eq hl.tiled.row hl'.sound.spaced hl.sound.spaced hheld

/-- The same blocks, the same members in every bucket. -/
theorem Laid.index_perm (hl : Laid h row idx) (hl' : Laid h' row idx') (c : Nat) :
    (idx c).Perm (idx' c) := by
  apply (List.perm_ext_iff_of_nodup (hl.sound.filed.files.nodup c)
    (hl'.sound.filed.files.nodup c)).mpr
  intro e
  rw [hl.sound.filed.covers, hl'.sound.filed.covers]

/-- Without a live block there is one free block. -/
theorem Laid.row_bare (hl : Laid h row idx) (hlive : live row = [])
    (hroom : h.firstBlock + 32 ≤ h.bounds.high) :
    row = bare h.firstBlock h.bounds.high ++ [⟨h.bounds.high, ⟨0, false, true⟩⟩] := by
  obtain ⟨ts, q, rfl, hspan⟩ := hl.tiled.row.snoc
  have hheld : held ts = [] := List.eq_nil_iff_forall_not_mem.mpr fun e he => by
    obtain ⟨t, ht, -, rfl⟩ := mem_held.mp he
    have h32 := (hspan.bounds ht).2.2.2
    rw [live_epilogue] at hlive
    exact List.not_mem_nil (hlive ▸ mem_live.mpr ⟨he, by simp only [Tile.entry]; omega⟩)
  have h8 := hl.tiled.aligned
  have h8' := hl.tiled.row.high_aligned h8
  refine hl.tiled.row.eq_of_held_eq ?_ hl.sound.spaced ?_ ?_
  · refine .block rfl (by simp only; omega) (by simp only; omega) ?_
    simp only [show h.firstBlock + (h.bounds.high - h.firstBlock) = h.bounds.high by omega]
    exact .epilogue false
  · intro t ht hfree
    rcases List.mem_cons.mp ht with rfl | ht
    · rfl
    · obtain rfl := List.mem_singleton.mp ht
      cases hfree
  · rw [held_append, hheld, held_append, show held (bare h.firstBlock h.bounds.high) = [] from rfl]
    rfl

end Heap

/-- After any run, releasing the same held blocks in two orders succeeds and leaves the same
    blocks, the same epilogue, and the same members in every bucket. When these were all,
    one free block is left. -/
theorem Run.releases_commute {arena : A} {memory : Memory} {config : Config}
    {past : List (Call × Answer)} {w : World A} (hs : LawfulArena.Sane arena)
    (hr : Run arena memory config past w) {cs ds : List Call} {ps qs : List Nat}
    (hcs : cs.map Call.frees = ps.map some) (hds : ds.map Call.frees = qs.map some) (hn : ps.Nodup)
    (hperm : ps.Perm qs) (hheld : ∀ p ∈ ps, p ∈ w.holds) :
    ∃ h₁ h₂ ts q idx₁ idx₂, Call.run cs w.heap = .ok (cs.map fun _ => .ok none) h₁ ∧
      Call.run ds w.heap = .ok (ds.map fun _ => .ok none) h₂ ∧
      h₁.prologue = h₂.prologue ∧ h₁.bounds = h₂.bounds ∧ h₁.WellFormed ts q idx₁ ∧
      h₂.WellFormed ts q idx₂ ∧
      (∀ c, (idx₁ c).Perm (idx₂ c)) ∧
      ((∀ p ∈ w.holds, p ∈ ps) → ts = bare h₁.firstBlock h₁.bounds.high ∧ q = false) := by
  obtain ⟨row, idx, hw⟩ := hr.sound hs
  have hlive : ∀ p ∈ ps, ∃ e ∈ live row, e.bp = p := fun p hp => (hw.holds p).mp (hheld p hp)
  obtain ⟨h₁, row₁, idx₁, hrun₁, hl₁, ⟨hprologue₁, -, -, -⟩, hbounds₁, hheld₁⟩ :=
    Heap.run_frees hw.laid hw.checkable hcs hn hlive
  obtain ⟨h₂, row₂, idx₂, hrun₂, hl₂, ⟨hprologue₂, -, -, -⟩, hbounds₂, hheld₂⟩ :=
    Heap.run_frees hw.laid hw.checkable hds (hperm.nodup_iff.mp hn) fun q hq =>
      hlive q (hperm.mem_iff.mpr hq)
  have hsame : held row₂ = held row₁ := by
    rw [hheld₁, hheld₂]
    exact List.filter_congr fun e _ => by simp only [hperm.mem_iff]
  obtain rfl := hl₁.row_unique hl₂ (hprologue₂.trans hprologue₁.symm)
      (hbounds₂.trans hbounds₁.symm) hsame
  obtain ⟨ts, q, hrow, hwell₁⟩ := hl₁.readOff
  obtain ⟨ts', q', hrow', hwell₂⟩ := hl₂.readOff
  obtain ⟨rfl, rfl⟩ := append_epilogue_inj (hrow.symm.trans hrow')
  refine ⟨h₁, h₂, ts, q, idx₁, idx₂, hrun₁, hrun₂, hprologue₁.trans hprologue₂.symm,
    hbounds₁.trans hbounds₂.symm, hwell₁, hwell₂,
    hl₁.index_perm hl₂, ?_⟩
  intro hall
  have hnone : live row₂ = [] := Heap.live_filter_nil hheld₁ fun e he =>
    hall e.bp ((hw.holds e.bp).mpr ⟨e, he, rfl⟩)
  have hroom : h₁.firstBlock + 32 ≤ h₁.bounds.high := by
    rw [Heap.firstBlock, hprologue₁, hbounds₁, ← Heap.firstBlock]
    exact (hr.founded hs).room
  rw [hl₁.row_bare hnone hroom] at hrow
  obtain ⟨hts, hq⟩ := append_epilogue_inj hrow
  exact ⟨hts.symm, hq.symm⟩

theorem Run.releases_commute_page : ∃ w h₁ h₂ ts q idx₁ idx₂,
    Run page .blank {} [(.allocate 24, .ok (some 4128)), (.allocate 40, .ok (some 4160)),
      (.allocate 24, .ok (some 4208))] w ∧
      Call.run [.release 4128, .tryRelease 4160] w.heap = .ok [.ok none, .ok none] h₁ ∧
      Call.run [.release 4160, .release 4128] w.heap = .ok [.ok none, .ok none] h₂ ∧
      h₁.WellFormed ts q idx₁ ∧ h₂.WellFormed ts q idx₂ ∧ ∀ c, (idx₁ c).Perm (idx₂ c) := by
  obtain ⟨w, hr, hholds, -⟩ :=
    Run.of_trial page .blank {} [.allocate 24, .allocate 40, .allocate 24]
    [.ok (some 4128), .ok (some 4160),
      .ok (some 4208)] (fun _ => ()) () (by decide +kernel) (by decide +kernel)
  have hheld : ∀ p ∈ [4128, 4160], p ∈ w.holds := by rw [hholds]; decide +kernel
  obtain ⟨h₁, h₂, ts, q, idx₁, idx₂, hrun₁, hrun₂, -, -, hwell₁, hwell₂, hperm, -⟩ :=
    Run.releases_commute (A := FixedArena) trivial hr
    (show [.release 4128, .tryRelease 4160].map Call.frees = [4128, 4160].map some from rfl)
    (show [.release 4160, .release 4128].map Call.frees = [4160, 4128].map some from rfl)
      (by decide) (by decide) hheld
  exact ⟨w, h₁, h₂, ts, q, idx₁, idx₂, hr, hrun₁, hrun₂, hwell₁, hwell₂, hperm⟩

end BoundaryTag
