/-
  BoundaryTag.Proofs.Strays — what the free lists of a heap can hold that an audit
  finds nothing wrong with.

  The memory may be anything. An audit judges the blocks one by one and the members of the lists
  one by one, and between the two it compares numbers only. A member is judged by the word below
  it, and that may be a forged header inside an allocated block: a stray. As the numbers agree,
  a free block is then in no list.

  Proved: the lists of an accepted heap end, hold no address twice, and hold as many as there
  are free blocks. They hold just the free blocks if, and only if, each address that they hold
  is a block's (`accepted_lists`). An accepted heap with a stray hands out memory of an
  allocated block (`accepts_stray`).
-/

import BoundaryTag.Heap.Operations
import BoundaryTag.Proofs.Audited
import BoundaryTag.Proofs.Runs
import Mathlib.Data.List.Perm.Subperm

namespace BoundaryTag

def Block.tile (b : Block) : Tile := ⟨b.bp, b.tag⟩

namespace Audit

variable {r : Region} {m : Memory} {row : List Tile} {first c : Nat} {es xs ys : List Entry}
  {e f : Entry}

/-! ## The blocks -/

theorem Swept.tag {bp : Nat} {p : Bool} (h : Swept r m bp p row) {t : Tile} (ht : t ∈ row) :
    r.tag t.bp m = .ok t.tag := by
  induction h with
  | epilogue _ _ hlow hword =>
    obtain rfl := List.mem_singleton.mp ht
    rw [Region.tag_eq hlow (Nat.le_refl _), hword, Tag.decode_encode rfl]
  | block hseen _ ih =>
    rcases List.mem_cons.mp ht with rfl | ht
    · exact hseen.tag
    · exact ih ht

/-- The walk passes the blocks of the row that it sees. -/
theorem Swept.blocks {w : Walk} {bp : Nat} (hw : w.prevFree.isSome = !w.prevAlloc)
    (h : Swept r m bp w.prevAlloc row) :
    ∃ q, (walkFrom r m w bp).blocks.map Block.tile ++ [⟨r.high, ⟨0, q, true⟩⟩] = row := by
  generalize hp : w.prevAlloc = p at h
  induction h generalizing w with
  | @epilogue p h8 hlt hlow hword =>
    have hnone : (inspect r w r.high).run m = .ok (.ok none) := by
      refine inspect_none.mpr
        ⟨isAligned_true.mpr ⟨h8, hlt⟩, _, Region.tag_eq hlow (Nat.le_refl _), ?_⟩
      rw [hword, Tag.decode_encode rfl]
    exact ⟨p, by rw [walkFrom, hnone]; rfl⟩
  | @block p t ts hseen _ ih =>
    subst hp
    obtain ⟨block, hblock⟩ := hseen.block
    obtain ⟨hbp, htag⟩ := block_tile hseen.tag hblock
    have hroom := hseen.room
    have hsome : (inspect r w t.bp).run m =
        .ok (.ok (some ⟨block, t.stop, by simp only [Tile.stop]; omega, hseen.stop_le⟩)) :=
      (inspect_some hw).mpr ⟨t.tag, hseen, rfl, hblock⟩
    obtain ⟨q, hq⟩ := ih (prevFree_pass w block) (by simp only [Walk.pass, htag])
    refine ⟨q, ?_⟩
    rw [walkFrom, hsome]
    simp only [List.map_cons, List.cons_append, hq, Block.tile, hbp, htag]

/-! ## One list -/

theorem Listed.met {prev : Option Nat} {lastSize : Nat} (h : Listed r m first c prev lastSize es)
    (he : e ∈ es) :
    ∃ prev next lastSize, Met r m first c prev next lastSize e := by
  induction es generalizing prev lastSize with
  | nil => cases he
  | cons x es ih =>
    rcases List.mem_cons.mp he with rfl | he
    · exact ⟨_, _, _, h.1⟩
    · exact ih h.2 he

theorem Listed.chained {prev : Option Nat} {lastSize : Nat}
    (h : Listed r m first c prev lastSize es) : Chained r m (firstOr es none) es := by
  induction es generalizing prev lastSize with
  | nil => rfl
  | cons e es ih =>
    obtain ⟨tag, htag, -, hsize⟩ := h.1.tag
    refine ⟨rfl, ?_, _, (Region.links_ok h.1.links).1, ih h.2⟩
    rw [← hsize]
    simp only [Region.size, Reading.bind_apply, htag]
    rfl

/-- The same header, the same class. -/
theorem Met.eq {first d : Nat} {prev next prev' next' : Option Nat} {lastSize lastSize' : Nat}
    (he : Met r m first c prev next lastSize e) (hf : Met r m first d prev' next' lastSize' f)
    (hbp : e.bp = f.bp) : e = f ∧ c = d := by
  obtain ⟨tag, htag, -, hsize⟩ := he.tag
  obtain ⟨tag', htag', -, hsize'⟩ := hf.tag
  rw [hbp, htag'] at htag
  obtain rfl := Except.ok.inj htag
  have hsizes : e.size = f.size := hsize.symm.trans hsize'
  exact ⟨by cases e; cases f; simp_all, by rw [← he.classed, ← hf.classed, hsizes]⟩

/-- Below a member lies the header of a free block of the list's class, that ends in the heap. -/
theorem Met.header {prev next : Option Nat} {lastSize : Nat}
    (h : Met r m first c prev next lastSize e) :
    first ≤ e.bp ∧ e.bp < r.high ∧ e.bp % 8 = 0 ∧
      ∃ tag, r.tag e.bp m = .ok tag ∧ tag.alloc = false ∧ classOf tag.size = .ok c ∧
        e.bp + tag.size ≤ r.high + 8 := by
  obtain ⟨tag, htag, hfree, hsize⟩ := h.tag
  have hroom := h.room
  have hstop := h.stop_le
  refine ⟨h.first_le, h.lt_high, h.aligned, tag, htag, hfree, ?_, by omega⟩
  rw [hsize, classOf, if_pos hroom, h.classed]

/-! ## All lists -/

section Lists

variable {buckets : Buckets} {idx : Index} (hrow : Swept r m first true row)
  (hlists : Lists r m buckets first idx (List.range bucketCount))
  (hsum : ((List.range bucketCount).flatMap idx).length = (vacant row).length)

/-- The members of all lists. -/
def reached (idx : Index) : List Nat := (List.range bucketCount).flatMap fun c =>
  (idx c).map Entry.bp

theorem mem_reached {p : Nat} : p ∈ reached idx ↔ ∃ c < bucketCount, ∃ e ∈ idx c, e.bp = p := by
  simp [reached]

theorem Lists.chained (hlists : Lists r m buckets first idx (List.range bucketCount))
    (hc : c < bucketCount) :
    Chained r m (buckets.head c) (idx c) := by
  obtain ⟨hhead, hlisted⟩ := hlists c (List.mem_range.mpr hc)
  rw [hhead]
  exact hlisted.chained

include hlists in
theorem reached_nodup : (reached idx).Nodup := by
  refine List.nodup_flatMap.mpr ⟨fun c hc => (hlists.chained (List.mem_range.mp hc)).nodup, ?_⟩
  refine List.Pairwise.imp_of_mem ?_ List.nodup_range
  intro c d hc hd hne p hp hp'
  obtain ⟨e, he, rfl⟩ := List.mem_map.mp hp
  obtain ⟨f, hf, hbp⟩ := List.mem_map.mp hp'
  obtain ⟨_, _, _, hmet⟩ := (hlists c hc).2.met he
  obtain ⟨_, _, _, hmet'⟩ := (hlists d hd).2.met hf
  exact hne (hmet.eq hmet' hbp.symm).2

include hsum in
theorem reached_length : (reached idx).length = ((vacant row).map Entry.bp).length := by
  rw [reached, ← List.map_flatMap, List.length_map, List.length_map, hsum]

include hrow hlists in
/-- A member that is a block is a free block. -/
theorem reached_vacant {p : Nat} (hp : p ∈ reached idx) (hblock : ∃ t ∈ row, t.bp = p) :
    p ∈ (vacant row).map Entry.bp := by
  obtain ⟨c, hc, e, he, rfl⟩ := mem_reached.mp hp
  obtain ⟨_, _, _, hmet⟩ := (hlists c (List.mem_range.mpr hc)).2.met he
  obtain ⟨t, ht, hbp⟩ := hblock
  obtain ⟨tag, htag, hfree, -⟩ := hmet.tag
  have hsame := hrow.tag ht
  rw [hbp, htag] at hsame
  obtain rfl := Except.ok.inj hsame
  exact List.mem_map.mpr ⟨t.entry, mem_vacant.mpr ⟨t, ht, hfree, rfl⟩, hbp⟩

include hrow hlists hsum in
/-- The numbers agree, so lists of blocks only have them all. -/
theorem reached_perm : (reached idx).Perm ((vacant row).map Entry.bp) ↔
    ∀ p ∈ reached idx, ∃ t ∈ row, t.bp = p := by
  constructor
  · intro hperm p hp
    obtain ⟨e, he, rfl⟩ := List.mem_map.mp (hperm.mem_iff.mp hp)
    obtain ⟨t, ht, -, rfl⟩ := mem_vacant.mp he
    exact ⟨t, ht, rfl⟩
  · intro hblocks
    -- distinct, each of them a free block, and as many as there are
    have hsub : (reached idx).Subperm ((vacant row).map Entry.bp) :=
      List.subperm_of_subset (reached_nodup hlists) fun p hp =>
        reached_vacant hrow hlists hp (hblocks p hp)
    exact hsub.perm_of_length_le (Nat.le_of_eq (reached_length hsum).symm)

include hlists in
/-- A search answers with a member. -/
theorem findFit_mem {size p : Nat} (h : buckets.findFit r size m = .ok (some p)) :
    p ∈ reached idx := by
  by_cases h32 : 32 ≤ size
  · rw [Buckets.findFit_chained (fun c hc => hlists.chained hc) h32] at h
    obtain ⟨e, hfind, rfl⟩ := Option.map_eq_some_iff.mp (Except.ok.inj h)
    obtain ⟨c, hc, he⟩ := List.exists_of_findSome?_eq_some hfind
    exact mem_reached.mpr ⟨c, List.mem_range.mp (List.mem_of_mem_drop hc), e,
      List.mem_of_find?_eq_some he, rfl⟩
  · simp only [Buckets.findFit, Reading.bind_apply, Reading.lift_apply, classOf, if_neg h32] at h
    cases h

end Lists

end Audit

section Heaps

variable {A : Type} [Arena A] {h h' : Heap A} {stats : Stats}

namespace Heap

/-- The blocks that the audit's walk meets. -/
def met (h : Heap A) : List Block := (Audit.walk h.bounds h.store.memory h.prologue).blocks

/-- The payload addresses of the free ones among them. -/
def freeMet (h : Heap A) : List Nat := (h.met.filter fun b => !b.tag.alloc).map Block.bp

theorem validate_passes (hv : validate h = .ok (.ok stats) h') :
    Checking.Passes (Audit.validate h.bounds h.store.buckets h.prologue) h.store.memory stats := by
  simp only [validate, HeapM.bind_apply, HeapM.get_apply] at hv
  rcases hr : region h with ⟨r, h₁⟩ | ⟨stop, h₁⟩
  · obtain ⟨rfl, rfl, -, -⟩ := region_ok.mp hr
    simp only [hr, HeapM.lift_reading] at hv
    rcases hrun : (Audit.validate h₁.bounds h₁.store.buckets h₁.prologue).run h₁.store.memory with
      fault | a
    · simp only [bounds] at hrun
      rw [hrun] at hv
      cases hv
    · simp only [bounds] at hrun
      rw [hrun] at hv
      injection hv with hv
      rw [Checking.Passes, bounds, hrun, hv]
  · rw [hr] at hv
    cases hv

/-- The walk meets what is seen, up to the epilogue. -/
theorem met_tiles (hp : Checking.Passes (Audit.checkPrologue h.bounds h.prologue) h.store.memory ())
    {row : List Tile} (hrow : Audit.Swept h.bounds h.store.memory h.firstBlock true row) :
    ∃ q, h.met.map Block.tile ++ [⟨h.bounds.high, ⟨0, q, true⟩⟩] = row := by
  have hwalk : h.met = (Audit.walkFrom h.bounds h.store.memory
      ⟨{ arenaBytes := h.bounds.span }, true, none⟩ h.firstBlock).blocks := by
    unfold Checking.Passes at hp
    rw [met, Audit.walk, hp]
    rfl
  rw [hwalk]
  exact Audit.Swept.blocks (w := ⟨{ arenaBytes := h.bounds.span }, true, none⟩) rfl hrow

theorem mem_met {row : List Tile} {q : Bool}
    (hmet : h.met.map Block.tile ++ [⟨h.bounds.high, ⟨0, q, true⟩⟩] = row) {p : Nat}
    (hp : p < h.bounds.high) :
    (∃ t ∈ row, t.bp = p) ↔ p ∈ h.met.map Block.bp := by
  simp only [← hmet, List.mem_append, List.mem_map, List.mem_singleton]
  constructor
  · rintro ⟨t, ⟨b, hb, rfl⟩ | rfl, hbp⟩
    · exact ⟨b, hb, hbp⟩
    · simp only at hbp
      omega
  · rintro ⟨b, hb, hbp⟩
    exact ⟨b.tile, .inl ⟨b, hb, rfl⟩, hbp⟩

theorem freeMet_eq {row : List Tile} {q : Bool}
    (hmet : h.met.map Block.tile ++ [⟨h.bounds.high, ⟨0, q, true⟩⟩] = row) :
    h.freeMet = (vacant row).map Entry.bp := by
  rw [← hmet, vacant_append, vacant_cons_alloc rfl, vacant_nil, List.append_nil, vacant,
    List.filter_map, List.map_map, List.map_map]
  rfl

/-- The lists of an accepted heap. -/
theorem accepted_lists (hv : validate h = .ok (.ok stats) h') :
    ∃ lists : Nat → List Nat, ∃ reached, reached = (List.range bucketCount).flatMap lists ∧
      (∀ c < bucketCount, h.store.buckets.members h.bounds c h.store.memory = .ok (lists c)) ∧
      (∀ c < bucketCount, ∀ p ∈ lists c, h.firstBlock ≤ p ∧ p < h.bounds.high ∧ p % 8 = 0 ∧
        ∃ tag, h.bounds.tag p h.store.memory = .ok tag ∧ tag.alloc = false ∧
          classOf tag.size = .ok c ∧
          p + tag.size ≤ h.bounds.high + 8) ∧
      reached.Nodup ∧ reached.length = h.freeMet.length ∧
      (reached.Perm h.freeMet ↔ ∀ p ∈ reached, p ∈ h.met.map Block.bp) ∧
      ∀ size p, h.store.buckets.findFit h.bounds size h.store.memory = .ok (some p) →
        p ∈ reached := by
  obtain ⟨hprologue, row, idx, hrow, hlists, hsum, -⟩ := Audit.validate_ok.mp (validate_passes hv)
  obtain ⟨q, hmet⟩ := met_tiles (Audit.checkPrologue_ok.mpr hprologue) hrow
  have hheader : ∀ c < bucketCount, ∀ p ∈ (idx c).map Entry.bp, h.firstBlock ≤ p ∧
      p < h.bounds.high ∧ p % 8 = 0 ∧
      ∃ tag, h.bounds.tag p h.store.memory = .ok tag ∧ tag.alloc = false ∧
        classOf tag.size = .ok c ∧ p + tag.size ≤ h.bounds.high + 8 := by
    intro c hc p hp
    obtain ⟨e, he, rfl⟩ := List.mem_map.mp hp
    obtain ⟨_, _, _, hm⟩ := (hlists c (List.mem_range.mpr hc)).2.met he
    exact hm.header
  refine ⟨fun c => (idx c).map Entry.bp, Audit.reached idx, rfl,
    fun c hc => Buckets.members_chained (hlists.chained hc), hheader,
    Audit.reached_nodup hlists, ?_, ?_, fun size p hfind => Audit.findFit_mem hlists hfind⟩
  · rw [freeMet_eq hmet]
    exact Audit.reached_length hsum
  · rw [freeMet_eq hmet, Audit.reached_perm hrow hlists hsum]
    refine forall_congr' fun p => imp_congr_right fun hp => mem_met hmet ?_
    obtain ⟨c, hc, e, he, rfl⟩ := Audit.mem_reached.mp hp
    exact (hheader c hc e.bp (List.mem_map_of_mem he)).2.1

/-- The lists of a heap that was not tampered with. -/
theorem accepted_lists_page : ∃ w stats h', Run page .blank {} [(.allocate 56, .ok (some 4128))] w ∧
    validate w.heap = .ok (.ok stats) h' ∧
    ∃ lists : Nat → List Nat, ∃ reached, reached = (List.range bucketCount).flatMap lists ∧
      (∀ c < bucketCount, w.heap.store.buckets.members w.heap.bounds c w.heap.store.memory =
        .ok (lists c)) ∧
      reached.Nodup ∧ reached.length = w.heap.freeMet.length := by
  obtain ⟨w, hr, -, hlook⟩ :=
    Run.of_trial page .blank {} [.allocate 56] [.ok (some 4128)] (answer? validate)
    (some (.ok ⟨288, 1, 64, 1, 192⟩)) (by decide +kernel) (by decide +kernel)
  obtain ⟨h', hv⟩ := answer_some hlook
  obtain ⟨lists, reached, h1, h2, -, h3, h4, -⟩ := accepted_lists hv
  exact ⟨w, _, h', hr, hv, lists, reached, h1, h2, h3, h4⟩

/-- A forged header behind the first block's own, so that it takes in the start of the free
    block behind it, and a forged free block over the rest. The other words stay. -/
def forged (m : Memory) : Memory := ((m.setWord 4120 99).setWord 4216 162).setWord 4368 162

/-- A stray. The only member of the lists is 4192, which lies in the allocated block from 4128
    up to 4224, and the only free block, at 4224, is in no list. The audit accepts the heap, and
    a search finds the stray. -/
theorem accepts_stray : ∃ w stats h', Run page .blank {} [(.allocate 56, .ok (some 4128))] w ∧
    validate (w.heap.withMemory (forged w.heap.store.memory)) = .ok (.ok stats) h' ∧
    (w.heap.withMemory (forged w.heap.store.memory)).met = [.allocated 4128 ⟨96, true, true⟩,
      .free 4224 ⟨160, true, false⟩ ⟨160, true, false⟩ ⟨none, none⟩] ∧
    (w.heap.withMemory (forged w.heap.store.memory)).freeMet = [4224] ∧
    (∀ c < bucketCount, w.heap.store.buckets.members w.heap.bounds c (forged w.heap.store.memory) =
      .ok (if c = 20 then [4192] else [])) ∧
    w.heap.store.buckets.findFit w.heap.bounds 160 (forged w.heap.store.memory) =
      .ok (some 4192) := by
  obtain ⟨w, hr, -, hlook⟩ :=
    Run.of_trial page .blank {} [.allocate 56] [.ok (some 4128)] (fun h => decide (
    answer? validate (h.withMemory (forged h.store.memory)) = some (.ok ⟨288, 1, 96, 1, 160⟩) ∧
    (h.withMemory (forged h.store.memory)).met = [.allocated 4128 ⟨96, true, true⟩,
      .free 4224 ⟨160, true, false⟩ ⟨160, true, false⟩ ⟨none, none⟩] ∧
    (h.withMemory (forged h.store.memory)).freeMet = [4224] ∧
    (∀ c < bucketCount, h.store.buckets.members h.bounds c (forged h.store.memory) =
      .ok (if c = 20 then [4192] else [])) ∧
    h.store.buckets.findFit h.bounds 160 (forged h.store.memory) = .ok (some 4192))) true
      (by decide +kernel) (by decide +kernel)
  obtain ⟨hvalidate, hmet, hfree, hmembers, hfind⟩ := of_decide_eq_true hlook
  obtain ⟨h', hv⟩ := answer_some hvalidate
  exact ⟨w, _, h', hr, hv, hmet, hfree, hmembers, hfind⟩

end Heap

end Heaps

end BoundaryTag
