/-
  BoundaryTag.Proofs.Blocks — what merging, splitting and freeing make of a row of blocks.

  `Filed` is a store in the middle of a step: a row in memory, and an index of some of
  its free blocks. Between the steps every free block is filed and none follows
  another: the store is `Sound`.

  Each operation on blocks has one theorem. It has an answer, leaves a sound store, and says which
  row that store has: `Merged` for `coalesce`, and for the others the allocated tiles, which
  determine the row. And no byte changes that is guarded by what is allocated afterwards (`Kept`).
-/

import BoundaryTag.Proofs.FreeLists
import BoundaryTag.Proofs.Tagged

namespace BoundaryTag

/-- The index has exactly these blocks, each in the list of its class. -/
def Covers (idx : Index) (es : List Entry) : Prop :=
  ∀ c e, e ∈ idx c ↔ sizeClass e.size = c ∧ e ∈ es

/-- Guarded bytes are as they were. -/
def Kept (first : Nat) (hs : List Entry) (m m' : Memory) : Prop :=
  ∀ x, Guarded first hs x → m'.byte x = m.byte x

/-- A row in memory, of whose free blocks some are filed. -/
structure Filed (r : Region) (first : Nat) (s : Store) (row : List Tile) (idx : Index)
    (es : List Entry) : Prop where
  tiled : Tiled r s.memory first row
  files : Files r s idx
  covers : Covers idx es
  sublist : es.Sublist (vacant row)

/-- A store between two steps: every free block is filed, and none follows another. -/
structure Sound (r : Region) (first : Nat) (s : Store) (row : List Tile) (idx : Index) : Prop where
  filed : Filed r first s row idx (vacant row)
  spaced : Spaced row

variable {r r' : Region} {first : Nat} {s : Store} {m m' m'' : Memory} {row L R : List Tile}
  {idx : Index} {es xs ys hs : List Entry} {e : Entry} {t u v w : Tile}

theorem Kept.refl (first : Nat) (hs : List Entry) (m : Memory) : Kept first hs m m := fun _ _ => rfl

theorem Kept.trans (h : Kept first hs m m') (h' : Kept first hs m' m'') : Kept first hs m m'' :=
  fun x hx => (h' x hx).trans (h x hx)

theorem Kept.mono {hs' : List Entry} (h : Kept first hs m m') (hsub : ∀ e ∈ hs', e ∈ hs) :
    Kept first hs' m m' :=
  fun x hx => h x (hx.mono hsub)

/-! ## Rows and indexes -/

namespace Covers

theorem nodup_erase (h : Covers idx (xs ++ e :: ys)) (hn : (xs ++ e :: ys).Nodup)
    (hd : ∀ c, (idx c).Nodup) :
    Covers (idx.erase e) (xs ++ ys) := by
  have hout : e ∉ xs ++ ys := (List.nodup_cons.mp (List.perm_middle.nodup_iff.mp hn)).1
  intro c f
  have hmem : f ∈ idx.erase e c ↔ f ∈ idx c ∧ f ≠ e := by
    unfold Index.erase
    split
    · rw [(hd c).mem_erase_iff, and_comm]
    · next hc =>
      refine ⟨fun hf => ⟨hf, ?_⟩, And.left⟩
      rintro rfl
      exact hc ((h c f).mp hf).1.symm
  rw [hmem, h c f, List.perm_middle.mem_iff, List.mem_cons]
  constructor
  · rintro ⟨⟨hc, hf⟩, hne⟩
    exact ⟨hc, hf.resolve_left hne⟩
  · rintro ⟨hc, hf⟩
    exact ⟨⟨hc, .inr hf⟩, fun he => hout (he ▸ hf)⟩

theorem insert (h : Covers idx (xs ++ ys)) : Covers (idx.insert e) (xs ++ e :: ys) := by
  intro c f
  rw [Index.mem_insert, h c f, List.perm_middle.mem_iff, List.mem_cons]
  constructor
  · rintro (⟨hc, hf⟩ | ⟨rfl, hc⟩)
    · exact ⟨hc, .inr hf⟩
    · exact ⟨hc.symm, .inl rfl⟩
  · rintro ⟨hc, rfl | hf⟩
    · exact .inr ⟨rfl, hc.symm⟩
    · exact .inl ⟨hc, hf⟩

end Covers

namespace Tiled

theorem stands (h : Tiled r m first row) (ht : t ∈ row) (hf : t.tag.alloc = false) :
    Stands r m t.entry := by
  obtain ⟨h1, -, h3⟩ := h.within ht
  have hfit := h.fits ht
  refine ⟨by simp only [Tile.entry]; omega, hfit.room hf,
    by simp only [Tile.entry, Tile.stop] at *; omega, ?_⟩
  simp only [Tile.entry, (h.written t ht).header, Tag.decode_encode hfit.whole]

theorem nodup_vacant (h : Tiled r m first row) : (vacant row).Nodup := by
  refine List.Nodup.map_on ?_ (h.row.nodup.filter _)
  intro t ht u hu he
  exact h.row.eq_of_bp_eq (List.mem_filter.mp ht).1 (List.mem_filter.mp hu).1 (Entry.mk.inj he).1

theorem vacant_apart (h : Tiled r m first row) {e f : Entry} (he : e ∈ vacant row)
    (hf : f ∈ vacant row) :
    e = f ∨ e.Apart f := by
  obtain ⟨t, ht, -, rfl⟩ := mem_vacant.mp he
  obtain ⟨u, hu, -, rfl⟩ := mem_vacant.mp hf
  rcases h.row.apart ht hu with rfl | ⟨h1, -⟩ | ⟨h1, -⟩
  · exact .inl rfl
  · exact .inr (.inl h1)
  · exact .inr (.inr h1)

/-- Header and links of a free block are no part of an allocated block's header. -/
theorem vacant_off_header (h : Tiled r m first row) (ht : t ∈ row) (ha : t.tag.alloc = true)
    (he : e ∈ vacant row) {y : Nat} (h1 : e.bp ≤ y + 8) (h2 : y < e.bp + 16) :
    y + 8 < t.bp ∨ t.bp ≤ y := by
  obtain ⟨w, hw, hfree, rfl⟩ := mem_vacant.mp he
  have hroom := (h.fits hw).room hfree
  simp only [Tile.entry] at h1 h2
  rcases h.row.apart hw ht with rfl | ⟨h3, -⟩ | ⟨h3, h4⟩
  · rw [ha] at hfree; cases hfree
  · simp only [Tile.stop] at h3; omega
  · simp only [Tile.stop] at h3; omega

/-- Links of free blocks changed, and nothing else: the row is as it was. -/
theorem links_changed (h : Tiled r m first row) (hsub : ∀ e ∈ es, e ∈ vacant row)
    (hy : ∀ z, (∀ e ∈ es, z < e.bp ∨ e.bp + 16 ≤ z) → m'.byte z = m.byte z) :
    Tiled r m' first row ∧ Kept first (held row) m m' := by
  constructor
  · refine h.congr fun t ht y hm => hy y ?_
    intro e he
    obtain ⟨u, hu, hf, rfl⟩ := mem_vacant.mp (hsub e he)
    rcases Nat.lt_or_ge y u.bp with h1 | h1
    · exact .inl h1
    · refine .inr (Nat.not_lt.mp fun h2 => ?_)
      exact h.plain_of_link hu hf h1 h2 t ht hm
  · intro x hx
    apply hy x
    intro e he
    obtain ⟨u, hu, hf, rfl⟩ := mem_vacant.mp (hsub e he)
    have h1 := hx.outside_free h hu hf
    have h2 := (h.fits hu).room hf
    simp only [Tile.entry, Tile.stop] at *
    omega

/-- Tag words changed, and nothing else. -/
theorem kept_of_plain (h : Tiled r m' first row) (hy : ∀ y, Plain row y → m'.byte y = m.byte y) :
    Kept first (held row) m m' :=
  fun x hx => hy x fun _ ht => hx.not_marks h ht

end Tiled

namespace Filed

theorem mem (h : Filed r first s row idx es) (he : e ∈ es) : e ∈ idx (sizeClass e.size) :=
  (h.covers _ e).mpr ⟨rfl, he⟩

/-- Blocks are given other tags, and those that are filed stay free blocks of their size. -/
theorem retile (hf : Files r s idx) (hc : Covers idx es) (ht : Tiled r' m' first row)
    (hlow : r'.low = r.low) (hsub : es.Sublist (vacant row))
    (hy : ∀ y, Tiled.Plain row y → m'.byte y = s.memory.byte y) :
    Filed r' first ⟨m', s.buckets⟩ row idx es := by
  have hin : ∀ c, ∀ e ∈ idx c, ∃ t ∈ row, t.tag.alloc = false ∧ t.entry = e :=
    fun c e he => mem_vacant.mp (hsub.subset ((hc c e).mp he).2)
  refine ⟨ht, ⟨hf.heads, ?_, ?_, hf.classed, hf.ascending, hf.nodup, ?_, ht.high_lt⟩, hc, hsub⟩
  · intro c
    rw [hlow]
    apply (hf.threaded c).congr
    intro e he
    obtain ⟨t, hm, hfree, rfl⟩ := hin c e he
    have hlink : ∀ z, t.bp ≤ z → z < t.bp + 16 → m'.byte z = s.memory.byte z :=
      fun z h1 h2 => hy z (ht.plain_of_link hm hfree h1 h2)
    exact ⟨Memory.word_congr fun z h1 h2 => hlink z (by simpa [Tile.entry] using h1)
      (by simp only [Tile.entry] at h2; omega),
      Memory.word_congr fun z h1 h2 =>
        hlink z (by simp only [Tile.entry] at h1; omega) (by simp only [Tile.entry] at h2; omega)⟩
  · intro c e he
    obtain ⟨t, hm, hfree, rfl⟩ := hin c e he
    exact ht.stands hm hfree
  · intro c e he d f hf
    exact ht.vacant_apart (hsub.subset ((hc c e).mp he).2) (hsub.subset ((hc d f).mp hf).2)

theorem remove (h : Filed r first s row idx (xs ++ e :: ys)) :
    ∃ s', Store.remove r e.bp s = .ok () s' ∧ Filed r first s' row (idx.erase e) (xs ++ ys) ∧
      Kept first (held row) s.memory s'.memory := by
  obtain ⟨s', hrun, hfiles, hframe⟩ := h.files.remove_spec (h.mem (e := e) (by simp))
  have hcov := h.covers.nodup_erase (h.sublist.nodup h.tiled.nodup_vacant) h.files.nodup
  have hsub : ∀ f ∈ xs ++ e :: ys, f ∈ vacant row := fun f hf => h.sublist.subset hf
  obtain ⟨htiled, hkept⟩ := h.tiled.links_changed hsub fun z hz =>
    hframe z fun c f hf => hz f ((h.covers c f).mp hf).2
  exact ⟨s', hrun,
    ⟨htiled, hfiles, hcov, ((List.sublist_cons_self e ys).append_left xs).trans h.sublist⟩, hkept⟩

theorem insert (h : Filed r first s row idx (xs ++ ys))
    (hsub : (xs ++ e :: ys).Sublist (vacant row)) :
    ∃ s', Store.insert r e.bp s = .ok () s' ∧ Filed r first s' row (idx.insert e) (xs ++ e :: ys) ∧
      Kept first (held row) s.memory s'.memory := by
  have hout : e ∉ xs ++ ys :=
    (List.nodup_cons.mp (List.perm_middle.nodup_iff.mp (hsub.nodup h.tiled.nodup_vacant))).1
  have he : e ∈ vacant row := hsub.subset (by simp)
  have hst : Stands r s.memory e := by
    obtain ⟨t, ht, hf, rfl⟩ := mem_vacant.mp he
    exact h.tiled.stands ht hf
  have hnew : ∀ c, ∀ f ∈ idx c, f.Apart e := by
    intro c f hf
    have hin := ((h.covers c f).mp hf).2
    exact (h.tiled.vacant_apart (h.sublist.subset hin) he).resolve_left fun heq => hout (heq ▸ hin)
  obtain ⟨s', hrun, hfiles, hframe⟩ := h.files.insert_spec hst hnew
  have hcov : Covers (idx.insert e) (xs ++ e :: ys) := h.covers.insert
  obtain ⟨htiled, hkept⟩ := h.tiled.links_changed (fun f hf => hsub.subset hf) fun z hz =>
    hframe z fun c f hf => hz f ((hcov c f).mp hf).2
  exact ⟨s', hrun, ⟨htiled, hfiles, hcov, hsub⟩, hkept⟩

end Filed

/-! ## Merging -/

/-- The free block from `b` to `c`, behind an allocated one. -/
def gap (b c : Nat) : Tile := ⟨b, ⟨c - b, true, false⟩⟩

/-- What becomes of a row and an index when the free block `t`, which is not filed, is merged
    with the free blocks `W` below it and `V` above it and the result filed, at `b`. -/
inductive Merged (t : Tile) : List Tile → Index → Nat → List Tile → Index → Prop
  | mk {X W V Y : List Tile} {y : Tile} {b : Nat} {idx : Index} :
      Spans b true (W ++ t :: V) y.bp false →
      (∀ x ∈ W ++ t :: V, x.tag.alloc = false) → y.tag.alloc = true →
      Merged t (X ++ ((W ++ t :: V) ++ y :: Y)) idx b (X ++ gap b y.bp :: y :: Y)
        (((W ++ V).foldl (fun i x => i.erase x.entry) idx).insert (gap b y.bp).entry)

namespace Merged

variable {row' : List Tile} {idx' : Index} {b : Nat}

theorem held_eq (h : Merged t row idx b row' idx') : held row' = held row := by
  obtain ⟨-, hfree, -⟩ := h
  rw [held_append, held_append, held_append, held_of_free hfree, held_cons_free rfl,
    List.nil_append]

/-- The free block at `b` has the space of `t` and perhaps more. -/
theorem mem (h : Merged t row idx b row' idx') :
    ∃ f ∈ row', f.bp = b ∧ f.tag.alloc = false ∧ f.bp ≤ t.bp ∧ t.stop ≤ f.stop := by
  obtain @⟨X, W, V, Y, y, b, idx, hspan, hfree, hy⟩ := h
  have hb := hspan.bounds (t := t) (by simp)
  refine ⟨gap b y.bp, by simp, rfl, rfl, hb.1, ?_⟩
  simp only [gap, Tile.stop] at *
  omega

end Merged

/-- The free block `t` of a row, with the free blocks `W` below it and `V` above it, from `b` up to
    an allocated one. -/
structure Around (L : List Tile) (t : Tile) (R X W V : List Tile) (y : Tile) (Y : List Tile)
    (b : Nat) : Prop where
  below : L = X ++ W
  above : R = V ++ y :: Y
  spans : Spans b true (W ++ t :: V) y.bp false
  free : ∀ x ∈ W ++ t :: V, x.tag.alloc = false
  alloc : y.tag.alloc = true

namespace Around

variable {X W V Y : List Tile} {y : Tile} {b : Nat}

theorem row_eq (h : Around L t R X W V y Y b) : L ++ t :: R = X ++ ((W ++ t :: V) ++ y :: Y) := by
  rw [h.below, h.above]
  simp

theorem vacant_eq (h : Around L t R X W V y Y b) :
    vacant L ++ vacant R = vacant X ++ (vacant (W ++ V) ++ vacant (y :: Y)) := by
  rw [h.below, h.above]
  simp

theorem behind (h : Around L t (u :: R) X W V y Y b) {x : Tile} (hx : x ∈ Y) : x ∈ R := by
  have habove := h.above
  cases V with
  | nil =>
    obtain ⟨-, rfl⟩ := List.cons.inj habove
    exact hx
  | cons v V =>
    obtain ⟨-, rfl⟩ := List.cons.inj habove
    simp [hx]

theorem erased (h : Around L t R X W V y Y b) :
    (vacant (W ++ V)).foldl Index.erase idx = (W ++ V).foldl (fun i x => i.erase x.entry) idx := by
  have hfree : ∀ x ∈ W ++ V, x.tag.alloc = false := fun x hx => h.free x (by
    rcases List.mem_append.mp hx with hx | hx <;> simp [hx])
  rw [vacant_of_free hfree, List.foldl_map]

end Around

/-- Takes blocks out of their lists, puts a free block over them and files it. -/
def Store.merge (r : Region) (b size : Nat) : List Entry → StoreM Nat
  | [] => do
    r.writeFree b size true
    Store.insert r b
    return b
  | e :: es => do
    Store.remove r e.bp
    Store.merge r b size es

/-- What coalescing makes of the free block `t`, which is not filed. -/
def Coalesces (r : Region) (first : Nat) (s : Store) (t : Tile) (row : List Tile)
    (idx : Index) : Prop :=
  ∃ s' b row' idx', Store.coalesce r t.bp s = .ok b s' ∧ Merged t row idx b row' idx' ∧
    Sound r first s' row' idx' ∧ Kept first (held row') s.memory s'.memory

namespace Filed

/-- Free blocks that are not filed give way to one over the same space. -/
theorem clear {X M Y : List Tile} {y : Tile} {b : Nat}
    (h : Filed r first s (X ++ (M ++ y :: Y)) idx (vacant X ++ vacant (y :: Y)))
    (hM : Spans b true M y.bp false) (hn : M ≠ []) :
    ∃ m', r.writeFree b (y.bp - b) true s.memory = .ok () m' ∧ r.Stamped (gap b y.bp) s.memory m' ∧
      Filed r first ⟨m', s.buckets⟩ (X ++ gap b y.bp :: y :: Y) idx
        (vacant X ++ vacant (y :: Y)) := by
  obtain ⟨h8, h32⟩ := hM.length
  have h32 := h32 hn
  have hstop : (gap b y.bp).stop = y.bp := by simp only [gap, Tile.stop]; omega
  have hole : Holed r s.memory first X (gap b y.bp) (y :: Y) :=
    Holed.cover h.tiled (by rw [hstop]; exact hM) h8 (by simp only [gap]; omega)
  have hfit := hole.fits (u := gap b y.bp) (by simp)
  have hb := hole.row.bounds (t := gap b y.bp) (by simp)
  have hlow := hole.low_le
  obtain ⟨m', hwrite, hstamp⟩ := Region.writeFree_spec (r := r) (t := gap b y.bp) rfl hfit
      (by omega) (Nat.le_add_right_of_le hb.2.1) s.memory
  have htiled : Tiled r m' first (X ++ ([gap b y.bp] ++ y :: Y)) := by
    refine (hole.congr fun z hz => hstamp.plain z ?_).fill
      ⟨rfl, rfl, h8, by simp only [gap]; omega, rfl, rfl⟩ ?_
    · intro hm
      have := hm.bounds hfit
      simp only [gap, Tile.stop] at *
      omega
    · intro u hu
      obtain rfl := List.mem_singleton.mp hu
      exact hstamp.written
  refine ⟨m', hwrite, hstamp,
    retile h.files h.covers htiled rfl ?_ fun z hz => hstamp.plain z (hz _ (by simp))⟩
  rw [vacant_append, vacant_cons_free (t := gap b y.bp) rfl]
  exact (List.sublist_cons_self _ _).append_left _

/-- The last step of merging: free blocks that are not filed give way to one, which is. -/
theorem fuse {X M Y : List Tile} {y : Tile} {b : Nat}
    (h : Filed r first s (X ++ (M ++ y :: Y)) idx (vacant X ++ vacant (y :: Y)))
    (hM : Spans b true M y.bp false) (hn : M ≠ []) (hy : y.tag.alloc = true) (hX : Spaced X)
    (hY : Spaced Y) :
    ∃ m' s', r.writeFree b (y.bp - b) true s.memory = .ok () m' ∧
      Store.insert r b ⟨m', s.buckets⟩ = .ok () s' ∧
      Sound r first s' (X ++ gap b y.bp :: y :: Y) (idx.insert (gap b y.bp).entry) ∧
      Kept first (held (X ++ gap b y.bp :: y :: Y)) s.memory s'.memory := by
  obtain ⟨m', hwrite, hstamp, hfiled⟩ := h.clear hM hn
  have hvac : vacant (X ++ gap b y.bp :: y :: Y) = vacant X ++ (gap b y.bp).entry :: vacant
      (y :: Y) := by
    rw [vacant_append, vacant_cons_free rfl]
  obtain ⟨s', hrun, hfiled', hkept⟩ :=
    hfiled.insert (e := (gap b y.bp).entry) (hvac ▸ List.Sublist.refl _)
  refine ⟨m', s', hwrite, hrun, ⟨hvac ▸ hfiled', ?_⟩, ?_⟩
  · intro x hx hfree
    simp only [List.mem_append, List.mem_cons] at hx
    rcases hx with hx | rfl | rfl | hx
    · exact hX x hx hfree
    · rfl
    · rw [hy] at hfree; cases hfree
    · exact hY x hx hfree
  · intro x hx
    rw [hkept x hx]
    exact hstamp.plain x (hx.not_marks hfiled.tiled (by simp))

/-- Coalescing `t` merges it with `W` below it and `V` above it, whatever is filed. -/
structure Merges (r : Region) (first : Nat) (L : List Tile) (t : Tile) (R X W V : List Tile)
    (y : Tile) (Y : List Tile) (b : Nat) : Prop where
  around : Around L t R X W V y Y b
  run : ∀ {s idx es}, Filed r first s (L ++ t :: R) idx es →
    Store.coalesce r t.bp s = Store.merge r b (y.bp - b) (vacant (W ++ V)) s

/-- Behind a free block there is an allocated one. -/
theorem succ_free (h : Filed r first s (L ++ t :: u :: R) idx es) (hu : u.tag.alloc = false)
    (hR : Spaced R) : ∃ v R', R = v :: R' ∧ v.tag.alloc = true := by
  have hrow := h.tiled.row
  rw [List.append_cons] at hrow
  exact hrow.succ_free hu hR

/-- The block below is allocated. -/
theorem merges_above (h : Filed r first s (L ++ t :: u :: R) idx es) (hfree : t.tag.alloc = false)
    (hp : t.tag.prevAlloc = true) (hR : Spaced R) :
    ∃ V Y y, Merges r first L t (u :: R) L [] V y Y t.bp := by
  have mt : t ∈ L ++ t :: u :: R := by simp
  have mu : u ∈ L ++ t :: u :: R := by simp
  have hlt := h.tiled.high_lt
  have hubp : u.bp = t.stop := h.tiled.next.1
  have htu : u.bp = t.bp + t.tag.size := hubp
  have hustop : u.bp + u.tag.size ≤ r.high := (h.tiled.within mu).2.2
  cases hu : u.tag.alloc with
  | true =>
    have hspan := h.tiled.row.spans_one.1
    rw [hp, hfree] at hspan
    refine ⟨[], R, u, ⟨by simp, rfl, hspan, by simpa using hfree, hu⟩, fun h => ?_⟩
    rw [show u.bp - t.bp = t.tag.size by omega]
    simp only [Store.coalesce, StoreM.bind_apply, StoreM.lift_reading, h.tiled.tag mt,
      h.tiled.above mt, ← hubp, h.tiled.tag mu, hp, hu, StoreM.pure_apply, List.nil_append,
      vacant_nil, Store.merge]
  | false =>
    obtain ⟨v, R, rfl, hv⟩ := h.succ_free hu hR
    have hspan : Spans t.bp t.tag.prevAlloc [t, u] v.bp v.tag.prevAlloc :=
      h.tiled.row.spans_mid (M := [u])
    obtain ⟨-, -, -, -, -, -, -, -, hvbp, hvp⟩ := id hspan
    have hvbp : u.bp + u.tag.size = v.bp := hvbp
    rw [hp, ← hvp, hu] at hspan
    refine ⟨[u], R, v, ⟨by simp, rfl, hspan, by simpa using ⟨hfree, hu⟩, hv⟩, fun h => ?_⟩
    rw [show v.bp - t.bp = t.tag.size + u.tag.size by omega]
    simp only [Store.coalesce, StoreM.bind_apply, StoreM.lift_reading, h.tiled.tag mt,
      h.tiled.above mt, ← hubp, h.tiled.tag mu, hp, hu, StoreM.pure_apply, StoreM.lift_except,
      checkedAdd_ok (show t.tag.size + u.tag.size < wordLimit by omega), List.nil_append,
      vacant_cons_free hu, vacant_nil, Store.merge, Tile.entry]

/-- The block `w` below is free. -/
theorem merges_below (h : Filed r first s (L ++ w :: t :: u :: R) idx es)
    (hw : w.tag.alloc = false) (hwp : w.tag.prevAlloc = true) (hfree : t.tag.alloc = false)
    (hR : Spaced R) : ∃ V Y y, Merges r first (L ++ [w]) t (u :: R) L [w] V y Y w.bp := by
  have mw : w ∈ L ++ w :: t :: u :: R := by simp
  have mt : t ∈ L ++ w :: t :: u :: R := by simp
  have mu : u ∈ L ++ w :: t :: u :: R := by simp
  have hlt := h.tiled.high_lt
  have hustop : u.bp + u.tag.size ≤ r.high := (h.tiled.within mu).2.2
  have hspan : Spans w.bp w.tag.prevAlloc [w, t] u.bp u.tag.prevAlloc :=
    h.tiled.row.spans_mid (M := [t])
  obtain ⟨-, -, -, -, hwt, htp, -, -, htu, hup⟩ := id hspan
  rw [hwp, ← hup, hfree] at hspan
  rw [hw] at htp
  have hwt : w.bp + w.tag.size = t.bp := hwt.symm
  have htstop : t.bp + t.tag.size = u.bp := htu
  have hrow : L ++ [w] ++ t :: u :: R = L ++ w :: t :: u :: R := (List.append_cons ..).symm
  cases hu : u.tag.alloc with
  | true =>
    refine ⟨[], R, u, ⟨rfl, rfl, hspan, by simpa using ⟨hw, hfree⟩, hu⟩, fun h => ?_⟩
    rw [hrow] at h
    rw [show u.bp - w.bp = w.tag.size + t.tag.size by omega]
    simp only [Store.coalesce, StoreM.bind_apply, StoreM.lift_reading, h.tiled.tag mt,
      h.tiled.above mt, htu, h.tiled.tag mu, htp, hu, h.tiled.below hw, h.tiled.tag mw, hwp,
      StoreM.pure_apply, StoreM.lift_except,
      checkedAdd_ok (show w.tag.size + t.tag.size < wordLimit by omega), List.append_nil,
      vacant_cons_free hw, vacant_nil, Store.merge, Tile.entry]
  | false =>
    rw [List.append_cons] at h
    obtain ⟨v, R, rfl, hv⟩ := h.succ_free hu hR
    rw [← List.append_cons] at h
    have hspan : Spans w.bp w.tag.prevAlloc [w, t, u] v.bp v.tag.prevAlloc :=
      h.tiled.row.spans_mid (M := [t, u])
    obtain ⟨-, -, -, -, -, -, -, -, -, -, -, -, hvbp, hvp⟩ := id hspan
    have hvbp : u.bp + u.tag.size = v.bp := hvbp
    rw [hwp, ← hvp, hu] at hspan
    refine ⟨[u], R, v, ⟨rfl, rfl, hspan, by simpa using ⟨hw, hfree, hu⟩, hv⟩, fun h => ?_⟩
    rw [hrow] at h
    rw [show v.bp - w.bp = w.tag.size + t.tag.size + u.tag.size by omega]
    simp only [Store.coalesce, StoreM.bind_apply, StoreM.lift_reading, h.tiled.tag mt,
      h.tiled.above mt, htu, h.tiled.tag mu, htp, hu, h.tiled.below hw, h.tiled.tag mw, hwp,
      StoreM.pure_apply, StoreM.lift_except,
      checkedAdd_ok (show w.tag.size + t.tag.size < wordLimit by omega),
      checkedAdd_ok (show w.tag.size + t.tag.size + u.tag.size < wordLimit by omega),
      List.cons_append, List.nil_append, vacant_cons_free hw, vacant_cons_free hu, vacant_nil,
      Store.merge, Tile.entry]

/-- Which blocks a free block is merged with hangs on the row only. -/
theorem merges (h : Filed r first s (L ++ t :: u :: R) idx es) (hfree : t.tag.alloc = false)
    (hL : Spaced L) (hR : Spaced R) :
    ∃ X W V Y y b, Merges r first L t (u :: R) X W V y Y b := by
  cases hp : t.tag.prevAlloc with
  | true =>
    obtain ⟨V, Y, y, hm⟩ := h.merges_above hfree hp hR
    exact ⟨L, [], V, Y, y, t.bp, hm⟩
  | false =>
    obtain ⟨L, w, rfl, hw, -⟩ := h.tiled.row.pred_free hp
    rw [← List.append_cons] at h
    obtain ⟨V, Y, y, hm⟩ := h.merges_below hw (hL w (by simp) hw) hfree hR
    exact ⟨L, [w], V, Y, y, w.bp, hm⟩

/-- Merging takes the filed blocks out of their lists one by one, and then files the new one. -/
theorem merge_spec {X M Y : List Tile} {y : Tile} {b : Nat}
    (h : Filed r first s (X ++ (M ++ y :: Y)) idx (vacant X ++ (es ++ vacant (y :: Y))))
    (hM : Spans b true M y.bp false) (hn : M ≠ []) (hfree : ∀ x ∈ M, x.tag.alloc = false)
    (hy : y.tag.alloc = true) (hX : Spaced X) (hY : Spaced Y) :
    ∃ s', Store.merge r b (y.bp - b) es s = .ok b s' ∧
      Sound r first s' (X ++ gap b y.bp :: y :: Y)
        ((es.foldl Index.erase idx).insert (gap b y.bp).entry) ∧
      Kept first (held (X ++ gap b y.bp :: y :: Y)) s.memory s'.memory := by
  have hheld : held (X ++ gap b y.bp :: y :: Y) = held (X ++ (M ++ y :: Y)) := by
    rw [held_append, held_append, held_append, held_of_free hfree, held_cons_free rfl,
      List.nil_append]
  induction es generalizing s idx with
  | nil =>
    obtain ⟨m', s', hwrite, hrun, hsound, hkept⟩ := h.fuse hM hn hy hX hY
    refine ⟨s', ?_, hsound, hkept⟩
    simp only [Store.merge, StoreM.bind_apply, StoreM.lift_writing, hwrite, hrun,
      StoreM.pure_apply]
  | cons e es ih =>
    obtain ⟨s₁, hremove, h₁, hkept₁⟩ := h.remove
    obtain ⟨s', hrun, hsound, hkept⟩ := ih h₁
    refine ⟨s', ?_, hsound, fun x hx => ?_⟩
    · simp only [Store.merge, StoreM.bind_apply, hremove, hrun]
    · rw [hkept x hx]
      exact hkept₁ x (hheld ▸ hx)

/-- A free block that is not filed is merged with the free blocks beside it. -/
theorem coalesce_spec (h : Filed r first s (L ++ t :: u :: R) idx (vacant L ++ vacant (u :: R)))
    (hfree : t.tag.alloc = false) (hL : Spaced L) (hR : Spaced R) :
    Coalesces r first s t (L ++ t :: u :: R) idx := by
  obtain ⟨X, W, V, Y, y, b, ha, hmerge⟩ := h.merges hfree hL hR
  have hrun := hmerge h
  have hX : Spaced X := fun x hx => hL x (ha.below ▸ List.mem_append_left _ hx)
  have hY : Spaced Y := fun x hx => hR x (ha.behind hx)
  rw [ha.row_eq, ha.vacant_eq] at h
  obtain ⟨s', hmerge, hsound, hkept⟩ := h.merge_spec ha.spans (by simp) ha.free ha.alloc hX hY
  rw [ha.erased] at hsound
  rw [ha.row_eq]
  exact ⟨s', b, _, _, hrun.trans hmerge, .mk ha.spans ha.free ha.alloc, hsound, hkept⟩

end Filed

/-! ## Splitting -/

/-- The first `size` bytes of a block, allocated. -/
def Tile.front (t : Tile) (size : Nat) : Tile := ⟨t.bp, ⟨size, t.tag.prevAlloc, true⟩⟩

/-- What is left of a block behind its first `size` bytes. -/
def Tile.back (t : Tile) (size : Nat) : Tile := ⟨t.bp + size, ⟨t.tag.size - size, true, false⟩⟩

/-- The space of a block and of the one behind it, as one free block. -/
def Tile.joined (t u : Tile) : Tile := ⟨t.bp, ⟨t.tag.size + u.tag.size, t.tag.prevAlloc, false⟩⟩

/-- Of a block of `total` bytes, how many are allocated for `size`. -/
def allotted (size total : Nat) : Nat := if 32 ≤ total - size then size else total

theorem le_allotted {size total : Nat} (h : size ≤ total) : size ≤ allotted size total := by
  unfold allotted
  split <;> omega

/-- What becomes of a row and an index when the first `size` bytes of `t`, which is not filed, are
    allocated: all of `t` is, or what is left over is merged with what is free behind it. -/
inductive Carved (L : List Tile) (t v : Tile) (R : List Tile) (size : Nat) (idx : Index) :
    List Tile → Index → Prop
  | whole : t.tag.size - size < 32 →
      Carved L t v R size idx (L ++ t.front t.tag.size :: v.withPrev true :: R) idx
  | part {b : Nat} {row' : List Tile} {idx' : Index} : 32 ≤ t.tag.size - size →
      Merged (t.back size) (L ++ t.front size :: t.back size :: v.withPrev false :: R)
        idx b row' idx' →
      Carved L t v R size idx row' idx'

theorem Carved.held_eq {size : Nat} {row' : List Tile} {idx' : Index}
    (h : Carved L t v R size idx row' idx') :
    held row' = held L ++ ⟨t.bp, allotted size t.tag.size⟩ :: held (v :: R) := by
  cases h with
  | whole hsmall =>
    rw [held_append, held_cons_alloc rfl, held_withPrev, allotted, if_neg (by omega)]
    rfl
  | part hlarge h =>
    rw [h.held_eq, held_append, held_cons_alloc rfl, held_cons_free rfl, held_withPrev, allotted,
      if_pos hlarge]
    rfl

section Split

variable {size : Nat} {a : Bool} (hole : Holed r s.memory first L t (v :: R))
  (htag : r.tag t.bp s.memory = .ok ⟨t.tag.size, t.tag.prevAlloc, a⟩) (hf : Files r s idx)
  (hc : Covers idx (vacant L ++ vacant (v :: R))) (hL : Spaced L) (hR : Spaced R)

include hole htag hf hc hL hR

omit htag hR in
/-- What is left over becomes a free block that is not filed yet. -/
theorem split_rest (h8 : size % 8 = 0) (h32 : 32 ≤ size) (hrest : 32 ≤ t.tag.size - size) :
    ∃ m₁ m₂ m₃, r.writeAllocated t.bp size t.tag.prevAlloc s.memory = .ok () m₁ ∧
      r.above t.bp m₁ = .ok (t.bp + size) ∧
      r.writeFree (t.bp + size) (t.tag.size - size) true m₁ = .ok () m₂ ∧
      r.above (t.bp + size) m₂ = .ok v.bp ∧
      r.setPrevAlloc v.bp false m₂ = .ok () m₃ ∧
      Filed r first ⟨m₃, s.buckets⟩
        (L ++ [t.front size] ++ t.back size :: v.withPrev false :: R) idx
        (vacant (L ++ [t.front size]) ++ vacant (v.withPrev false :: R)) ∧
        Spaced (L ++ [t.front size]) ∧
      ∀ y, Tiled.Plain (L ++ [t.front size] ++ t.back size :: v.withPrev false :: R) y →
        m₃.byte y = s.memory.byte y := by
  have hb := hole.row.bounds (t := t) (by simp)
  have hlow := hole.low_le
  have hlt := hole.high_lt
  obtain ⟨⟨-, -, ht8, -, hvbp, -⟩, -⟩ := hole.row.spans_one
  have hstop : t.stop = t.bp + t.tag.size := rfl
  have fit₁ : (t.front size).Fits := ⟨by simp only [Tile.front]; omega, h8, fun _ => h32,
      by simp only [Tile.front, Tile.stop]; omega⟩
  have fit₂ : (t.back size).Fits :=
    ⟨by simp only [Tile.back]; omega, by simp only [Tile.back]; omega, fun _ => hrest,
      by simp only [Tile.back, Tile.stop]; omega⟩
  have hstop₂ : (t.back size).stop = v.bp := by simp only [Tile.back, Tile.stop] at *; omega
  obtain ⟨m₁, hwrite₁, hs₁⟩ : ∃ m₁, r.writeAllocated t.bp size t.tag.prevAlloc s.memory =
      .ok () m₁ ∧ r.Stamped (t.front size) s.memory m₁ :=
    Region.writeAllocated_spec rfl fit₁ (by simp only [Tile.front]; omega)
      (by simp only [Tile.front]; omega) s.memory
  obtain ⟨m₂, hwrite₂, hs₂⟩ : ∃ m₂, r.writeFree (t.bp + size) (t.tag.size - size) true m₁ =
      .ok () m₂ ∧ r.Stamped (t.back size) m₁ m₂ :=
    Region.writeFree_spec rfl fit₂ (by simp only [Tile.back]; omega) (by omega) m₁
  have habove₁ : r.above t.bp m₁ = .ok (t.bp + size) := hs₁.above
  have habove₂ : r.above (t.bp + size) m₂ = .ok v.bp := hstop₂ ▸ hs₂.above
  have hspan : Spans t.bp t.tag.prevAlloc [t.front size, t.back size] t.stop false :=
    ⟨rfl, rfl, h8, h32, rfl, rfl, fit₂.whole, hrest, hstop₂.trans hvbp.symm, rfl⟩
  have hwritten : ∀ u ∈ [t.front size, t.back size], u.Written m₂ := by
    intro u hu
    rcases List.mem_cons.mp hu with rfl | hu
    · refine hs₁.written.congr fit₁ fun y hm => hs₂.plain y ?_
      intro hm'
      have h1 := hm.bounds fit₁
      have h2 := (hm'.bounds fit₂).1
      simp only [Tile.front, Tile.back, Tile.stop] at h1 h2
      omega
    · exact List.mem_singleton.mp hu ▸ hs₂.written
  obtain ⟨m₃, hset, htiled, hplain⟩ := hole.refit hspan hwritten fun y hy => by
    rw [hs₂.plain y (hy _ (by simp)), hs₁.plain y (hy _ (by simp))]
  have heq : L ++ ([t.front size, t.back size] ++ v.withPrev false :: R) =
      L ++ [t.front size] ++ t.back size :: v.withPrev false :: R := by simp
  rw [heq] at htiled hplain
  refine ⟨m₁, m₂, m₃, hwrite₁, habove₁, hwrite₂, habove₂, hset, ?_, ?_, hplain⟩
  · rw [vacant_append, vacant_withPrev, vacant_cons_alloc (t := t.front size) rfl, vacant_nil,
      List.append_nil]
    refine .retile hf hc htiled rfl ?_ hplain
    rw [vacant_append, vacant_append, vacant_cons_alloc (t := t.front size) rfl,
      vacant_cons_free (t := t.back size) rfl, vacant_withPrev, vacant_nil, List.append_nil]
    exact (List.sublist_cons_self _ _).append_left _
  · intro x hx hfree
    rcases List.mem_append.mp hx with hx | hx
    · exact hL x hx hfree
    · rw [List.mem_singleton.mp hx] at hfree; cases hfree

/-- What is left over is merged with what is free behind it. -/
theorem split_part (h8 : size % 8 = 0) (h32 : 32 ≤ size) (hrest : 32 ≤ t.tag.size - size) :
    ∃ s' row' idx', Store.split r t.bp size s = .ok () s' ∧ Carved L t v R size idx row' idx' ∧
      Sound r first s' row' idx' ∧ Kept first (held row') s.memory s'.memory := by
  obtain ⟨m₁, m₂, m₃, hwrite₁, habove₁, hwrite₂, habove₂, hset, hfiled, hspaced, hplain⟩ :=
    split_rest hole hf hc hL h8 h32 hrest
  obtain ⟨s', b, row', idx', hrun, hmerged, hsound, hkept⟩ := hfiled.coalesce_spec rfl hspaced hR
  have hheld := hmerged.held_eq
  rw [← List.append_cons] at hmerged
  refine ⟨s', row', idx', ?_, .part hrest hmerged, hsound, ?_⟩
  · have hrun : Store.coalesce r (t.bp + size) ⟨m₃, s.buckets⟩ = .ok b s' := hrun
    simp only [Store.split, StoreM.bind_apply, StoreM.lift_reading, StoreM.lift_writing, htag,
      Nat.not_lt.mpr (show size ≤ t.tag.size by omega), minBlock, hrest, if_true, if_false, hwrite₁,
      habove₁, hwrite₂, habove₂, hset, StoreM.discard_apply, hrun]
  · intro x hx
    rw [hkept x hx]
    exact hplain x fun u hu => Guarded.not_marks (hheld ▸ hx) hfiled.tiled hu

/-- Too little is left over to be a block, and stays with the allocation. -/
theorem split_whole (hle : size ≤ t.tag.size) (hrest : t.tag.size - size < 32) :
    ∃ s' row' idx', Store.split r t.bp size s = .ok () s' ∧ Carved L t v R size idx row' idx' ∧
      Sound r first s' row' idx' ∧ Kept first (held row') s.memory s'.memory := by
  have hb := hole.row.bounds (t := t) (by simp)
  have hlow := hole.low_le
  have hlt := hole.high_lt
  obtain ⟨⟨-, -, ht8, -, hvbp, -⟩, -⟩ := hole.row.spans_one
  have hstop : t.stop = t.bp + t.tag.size := rfl
  have hblock := hole.block
  have fit : (t.front t.tag.size).Fits := ⟨by simp only [Tile.front]; omega, ht8, fun _ => hblock,
      by simp only [Tile.front, Tile.stop]; omega⟩
  obtain ⟨m₁, hwrite, hs⟩ :
      ∃ m₁, r.writeAllocated t.bp t.tag.size t.tag.prevAlloc s.memory = .ok () m₁ ∧
      r.Stamped (t.front t.tag.size) s.memory m₁ :=
    Region.writeAllocated_spec rfl fit (by simp only [Tile.front]; omega)
      (by simp only [Tile.front]; omega) s.memory
  have habove : r.above t.bp m₁ = .ok v.bp := hvbp ▸ hs.above
  obtain ⟨m₂, hset, htiled, hplain⟩ := hole.refit (M := [t.front t.tag.size]) (x := true)
    ⟨rfl, rfl, ht8, hblock,
      rfl, rfl⟩ (fun u hu => (List.mem_singleton.mp hu ▸ hs.written : u.Written m₁)) fun y hm =>
      hs.plain y (hm _ (by simp))
  have hvac : vacant (L ++ ([t.front t.tag.size] ++ v.withPrev true :: R)) = vacant L ++
      vacant (v :: R) := by
    rw [vacant_append, vacant_append, vacant_cons_alloc (t := t.front t.tag.size) rfl,
      vacant_withPrev, vacant_nil, List.nil_append]
  have hfiled : Filed r first ⟨m₂, s.buckets⟩
      (L ++ ([t.front t.tag.size] ++ v.withPrev true :: R)) idx _ :=
    .retile hf hc htiled rfl (hvac ▸ List.Sublist.refl _) hplain
  refine ⟨⟨m₂, s.buckets⟩, _, idx, ?_, .whole hrest, ⟨hvac ▸ hfiled, ?_⟩,
    htiled.kept_of_plain hplain⟩
  · simp only [Store.split, StoreM.bind_apply, StoreM.lift_reading, StoreM.lift_writing, htag,
      Nat.not_lt.mpr hle, minBlock, Nat.not_le.mpr hrest, if_false, hwrite, habove, hset]
  · intro x hx hfree
    simp only [List.mem_append, List.mem_cons] at hx
    rcases hx with hx | rfl | rfl | hx
    · exact hL x hx hfree
    · cases hfree
    · rfl
    · exact hR x hx hfree

/-- Of a block that is not filed, the first bytes are allocated. The block behind it may
    say anything about it. -/
theorem split_spec (h8 : size % 8 = 0) (h32 : 32 ≤ size) (hle : size ≤ t.tag.size) :
    ∃ s' row' idx', Store.split r t.bp size s = .ok () s' ∧ Carved L t v R size idx row' idx' ∧
      Sound r first s' row' idx' ∧ Kept first (held row') s.memory s'.memory := by
  by_cases hrest : 32 ≤ t.tag.size - size
  · exact split_part hole htag hf hc hL hR h8 h32 hrest
  · exact split_whole hole htag hf hc hL hR hle (Nat.not_le.mp hrest)

end Split

/-! ## The operations -/

namespace Sound

theorem spaced_left (h : Sound r first s (L ++ R) idx) : Spaced L :=
  fun x hx => h.spaced x (List.mem_append_left _ hx)

theorem tiled (h : Sound r first s row idx) : Tiled r s.memory first row := h.filed.tiled

/-- The free block `t` is allocated, or its first `size` bytes are. -/
theorem place_spec {size : Nat} (h : Sound r first s (L ++ t :: v :: R) idx)
    (hfree : t.tag.alloc = false) (h8 : size % 8 = 0) (h32 : 32 ≤ size) (hle : size ≤ t.tag.size) :
    ∃ s' row' idx', Store.place r t.bp size s = .ok () s' ∧
      Carved L t v R size (idx.erase t.entry) row' idx' ∧
      Sound r first s' row' idx' ∧ Kept first (held (L ++ t :: v :: R)) s.memory s'.memory := by
  have hfiled := h.filed
  rw [vacant_append, vacant_cons_free hfree] at hfiled
  obtain ⟨s₁, hremove, h₁, hkept₁⟩ := hfiled.remove
  have hR : Spaced R := fun x hx => h.spaced x (by simp [hx])
  obtain ⟨s', row', idx', hrun, hcarved, hsound, hkept⟩ :=
    split_spec (h₁.tiled.hole (Nat.le_trans h32 hle)) (h₁.tiled.tag (by simp))
    h₁.files h₁.covers h.spaced_left hR h8 h32 hle
  refine ⟨s', row', idx', ?_, hcarved, hsound, hkept₁.trans (hkept.mono ?_)⟩
  · have hremove : Store.remove r t.bp s = .ok () s₁ := hremove
    simp only [Store.place, StoreM.bind_apply, hremove, hrun]
  · intro e he
    rw [held_append, held_cons_free hfree] at he
    rw [hcarved.held_eq]
    simp only [List.mem_append, List.mem_cons] at he ⊢
    exact he.imp_right .inr

/-- The allocated block `t` gives back all but its first `size` bytes. -/
theorem shrink_spec {size : Nat} (h : Sound r first s (L ++ t :: v :: R) idx)
    (halloc : t.tag.alloc = true) (h8 : size % 8 = 0) (h32 : 32 ≤ size) (hle : size ≤ t.tag.size) :
    ∃ s' row' idx', Store.split r t.bp size s = .ok () s' ∧ Carved L t v R size idx row' idx' ∧
      Sound r first s' row' idx' ∧ Kept first (held row') s.memory s'.memory := by
  have hfiled := h.filed
  rw [vacant_append, vacant_cons_alloc halloc] at hfiled
  have hR : Spaced R := fun x hx => h.spaced x (by simp [hx])
  exact split_spec (hfiled.tiled.hole (Nat.le_trans h32 hle))
    (hfiled.tiled.tag (by simp)) hfiled.files hfiled.covers
    h.spaced_left hR h8 h32 hle

/-- The allocated block `t` takes in the free block `u` behind it: its header counts both, and
    the row has a hole there. -/
theorem absorb (h : Sound r first s (L ++ t :: u :: v :: R) idx) (halloc : t.tag.alloc = true)
    (hu : u.tag.alloc = false) :
    ∃ s₁ m₁, Store.remove r u.bp s = .ok () s₁ ∧
      r.writeAllocated t.bp (t.tag.size + u.tag.size) t.tag.prevAlloc s₁.memory = .ok () m₁ ∧
      Holed r m₁ first L (t.joined u) (v :: R) ∧
      r.tag t.bp m₁ = .ok ⟨t.tag.size + u.tag.size, t.tag.prevAlloc, true⟩ ∧
      Files r ⟨m₁, s₁.buckets⟩ (idx.erase u.entry) ∧
      Covers (idx.erase u.entry) (vacant L ++ vacant (v :: R)) ∧
      ∀ x, Guarded first (held (L ++ t :: u :: v :: R)) x → m₁.byte x = s.memory.byte x := by
  have mt : t ∈ L ++ t :: u :: v :: R := by simp
  have hspan : Spans t.bp t.tag.prevAlloc [t, u] v.bp v.tag.prevAlloc :=
    h.tiled.row.spans_mid (M := [u])
  obtain ⟨-, -, ht8, ht32, hubp, -, hu8, -, hvbp, hvp⟩ := id hspan
  rw [← hvp, hu] at hspan
  have hfiled := h.filed
  rw [vacant_append, vacant_cons_alloc halloc, vacant_cons_free hu] at hfiled
  obtain ⟨s₁, hremove, h₁, hkept₁⟩ := hfiled.remove
  obtain ⟨T, hT⟩ : ∃ T, T = t.joined u := ⟨_, rfl⟩
  rw [← hT]
  obtain ⟨hTbp, hTsize, hTprev, hTalloc⟩ : T.bp = t.bp ∧ T.tag.size = t.tag.size + u.tag.size ∧
    T.tag.prevAlloc = t.tag.prevAlloc ∧
    T.tag.alloc = false := hT ▸ ⟨rfl, rfl, rfl, rfl⟩
  have hTstop : T.stop = v.bp := by
    rw [← hvbp]
    simp only [Tile.stop] at *
    omega
  have hole : Holed r s₁.memory first L T (v :: R) :=
    Holed.cover (M := [t, u]) h₁.tiled (by rw [hTbp, hTprev, hTstop, hTalloc]; exact hspan)
      (by omega) (by omega)
  have hb := hole.row.bounds (t := T) (by simp)
  have hlow := hole.low_le
  have hlt := hole.high_lt
  have fit : (T.front T.tag.size).Fits :=
    ⟨by simp only [Tile.front]; omega, hb.2.2.1, fun _ => hole.block,
      by simp only [Tile.front, Tile.stop] at *; omega⟩
  obtain ⟨m₁, hwrite, hs⟩ := Region.writeAllocated_spec (r := r) (t := T.front T.tag.size) rfl fit
      (by simp only [Tile.front]; omega)
    (by simp only [Tile.front, Tile.stop] at *; omega) s₁.memory
  -- only the header of the block is written: behind it lies payload
  have hy : ∀ y, (y + 8 < t.bp ∨ t.bp ≤ y) → m₁.byte y = s₁.memory.byte y := by
    intro y hy
    apply hs.plain y
    intro hm
    rcases hm with hm | hm
    · simp only [Tile.front] at hm; omega
    · cases hm.1
  have hwrite : r.writeAllocated t.bp (t.tag.size + u.tag.size) t.tag.prevAlloc s₁.memory =
      .ok () m₁ := by
    rw [← hTbp, ← hTsize, ← hTprev]
    exact hwrite
  have htag : r.tag t.bp m₁ = .ok ⟨t.tag.size + u.tag.size, t.tag.prevAlloc, true⟩ := by
    rw [← hTbp, ← hTsize, ← hTprev]
    exact hs.tag
  refine ⟨s₁, m₁, hremove,
    hwrite, hole.congr fun y hout => hy y (by simp only [Tile.stop] at hout; omega), htag, ?_,
    h₁.covers, ?_⟩
  · exact h₁.files.congr fun c e he y h1 h2 =>
      hy y (h.tiled.vacant_off_header mt halloc (h₁.sublist.subset ((h₁.covers c e).mp he).2) h1 h2)
  · intro x hx
    rw [← hkept₁ x hx]
    exact hy x (hx.outside_header h.tiled mt)

/-- The allocated block `t` takes in the free block `u` behind it, and is cut again. -/
theorem growInPlace_grown {size : Nat} (h : Sound r first s (L ++ t :: u :: v :: R) idx)
    (halloc : t.tag.alloc = true) (hu : u.tag.alloc = false) (h8 : size % 8 = 0) (h32 : 32 ≤ size)
    (hle : size ≤ t.tag.size + u.tag.size) :
    ∃ s' row' idx', Store.growInPlace r t.bp size s = .ok true s' ∧
      Carved L (t.joined u) v R size (idx.erase u.entry) row' idx' ∧
      Sound r first s' row' idx' ∧
      ∀ x, Guarded first (held (L ++ t :: u :: v :: R)) x → Guarded first (held row') x →
        s'.memory.byte x = s.memory.byte x := by
  have mt : t ∈ L ++ t :: u :: v :: R := by simp
  have mu : u ∈ L ++ t :: u :: v :: R := by simp
  have hlt : u.stop < wordLimit := (h.tiled.fits mu).stop_lt
  have hubp : u.bp = t.stop := h.tiled.next.1
  obtain ⟨s₁, m₁, hremove, hwrite, hole, htag, hfiles, hcovers, hguard⟩ := h.absorb halloc hu
  obtain ⟨s', row', idx', hrun, hcarved, hsound, hkept⟩ :=
    split_spec (s := ⟨m₁, s₁.buckets⟩) hole htag hfiles hcovers h.spaced_left
    (fun x hx => h.spaced x (by simp [hx])) h8 h32 hle
  refine ⟨s', row', idx', ?_, hcarved, hsound, ?_⟩
  · have hsum : t.tag.size + u.tag.size < wordLimit := by simp only [hubp, Tile.stop] at hlt; omega
    have hrun : Store.split r t.bp size ⟨m₁, s₁.buckets⟩ = .ok () s' := hrun
    simp only [Store.growInPlace, StoreM.bind_apply, StoreM.lift_reading, h.tiled.tag mt,
      h.tiled.above mt, ← hubp, h.tiled.tag mu, hu, StoreM.lift_except, checkedAdd_ok hsum,
      Nat.not_lt.mpr hle, StoreM.pure_apply, Bool.false_eq_true, if_false, hremove,
      StoreM.lift_writing, hwrite, hrun]
  · intro x hx hx'
    rw [hkept x hx', hguard x hx]

/-- The allocated block `t` stays as it is, or takes in the free block behind it and then gives
    back what is left over. -/
theorem growInPlace_spec {size : Nat} (h : Sound r first s (L ++ t :: u :: R) idx)
    (halloc : t.tag.alloc = true) (h8 : size % 8 = 0) (h32 : 32 ≤ size) :
    (Store.growInPlace r t.bp size s = .ok false s ∧
      (u.tag.alloc = true ∨ t.tag.size + u.tag.size < size)) ∨
      ∃ v R' s' row' idx', R = v :: R' ∧ u.tag.alloc = false ∧ size ≤ t.tag.size + u.tag.size ∧
        Store.growInPlace r t.bp size s = .ok true s' ∧
        Carved L (t.joined u) v R' size (idx.erase u.entry) row' idx' ∧
        Sound r first s' row' idx' ∧
        ∀ x, Guarded first (held (L ++ t :: u :: R)) x → Guarded first (held row') x →
          s'.memory.byte x = s.memory.byte x := by
  have mt : t ∈ L ++ t :: u :: R := by simp
  have mu : u ∈ L ++ t :: u :: R := by simp
  have hubp : u.bp = t.stop := h.tiled.next.1
  cases hu : u.tag.alloc with
  | true =>
    refine .inl ⟨?_, .inl rfl⟩
    simp only [Store.growInPlace, StoreM.bind_apply, StoreM.lift_reading, h.tiled.tag mt,
      h.tiled.above mt, ← hubp, h.tiled.tag mu, hu, if_true, StoreM.pure_apply]
  | false =>
    by_cases hlt : t.tag.size + u.tag.size < size
    · refine .inl ⟨?_, .inr hlt⟩
      have hstop : u.stop < wordLimit := (h.tiled.fits mu).stop_lt
      have hsum : t.tag.size + u.tag.size < wordLimit := by
        simp only [hubp, Tile.stop] at hstop
        omega
      simp only [Store.growInPlace, StoreM.bind_apply, StoreM.lift_reading, h.tiled.tag mt,
        h.tiled.above mt, ← hubp, h.tiled.tag mu, hu, StoreM.lift_except, checkedAdd_ok hsum, hlt,
        if_true, StoreM.pure_apply, Bool.false_eq_true, if_false]
    · have hrow := h.tiled.row
      rw [List.append_cons] at hrow
      obtain ⟨v, R, rfl, -⟩ := hrow.succ_free hu fun x hx => h.spaced x (by simp [hx])
      obtain ⟨s', row', idx', hgrown⟩ := h.growInPlace_grown halloc hu h8 h32 (Nat.not_lt.mp hlt)
      exact .inr ⟨v, R, s', row', idx', rfl, rfl, Nat.not_lt.mp hlt, hgrown⟩

/-- The tags of the block `t`, which was allocated, are those of a free block that is not filed
    yet. -/
theorem vacate (h : Sound r first s (L ++ t :: u :: R) idx) (halloc : t.tag.alloc = true) :
    ∃ m₁ m₂, r.writeFree t.bp t.tag.size t.tag.prevAlloc s.memory = .ok () m₁ ∧
      r.above t.bp m₁ = .ok u.bp ∧
      r.setPrevAlloc u.bp false m₁ = .ok () m₂ ∧
      Filed r first ⟨m₂, s.buckets⟩
        (L ++ ⟨t.bp, ⟨t.tag.size, t.tag.prevAlloc, false⟩⟩ :: u.withPrev false :: R) idx
        (vacant L ++ vacant (u.withPrev false :: R)) ∧
      ∀ y, Tiled.Plain (L ++ ⟨t.bp, ⟨t.tag.size, t.tag.prevAlloc, false⟩⟩ :: u.withPrev false :: R)
        y → m₂.byte y = s.memory.byte y := by
  have mt : t ∈ L ++ t :: u :: R := by simp
  obtain ⟨⟨-, -, h8, h32, hstop, -⟩, -⟩ := h.tiled.row.spans_one
  have hole := h.tiled.hole h32
  obtain ⟨hlow, hle, hhigh⟩ := h.tiled.within mt
  have hlt := hole.high_lt
  obtain ⟨T, hT⟩ : ∃ T : Tile, T = ⟨t.bp, ⟨t.tag.size, t.tag.prevAlloc, false⟩⟩ := ⟨_, rfl⟩
  rw [← hT]
  obtain ⟨hTbp, hTtag⟩ : T.bp = t.bp ∧ T.tag = ⟨t.tag.size, t.tag.prevAlloc, false⟩ :=
    hT ▸ ⟨rfl, rfl⟩
  have hTstop : T.stop = u.bp := by rw [← hstop, Tile.stop, Tile.stop, hTbp, hTtag]
  have fit : T.Fits := ⟨by omega, hTtag ▸ h8, fun _ => hTtag ▸ h32, by omega⟩
  obtain ⟨m₁, hwrite, hs⟩ :=
    Region.writeFree_spec (r := r) (t := T) (hTtag ▸ rfl) fit (by omega) (by omega) s.memory
  have habove : r.above t.bp m₁ = .ok u.bp := by rw [← hTbp, ← hTstop, hs.above]
  obtain ⟨m₂, hset, htiled, hplain⟩ := hole.refit (M := [T]) (x := false)
    ⟨hTbp, by rw [hTtag], fit.whole, hTtag ▸ h32, hTstop.trans hstop.symm, by rw [hTtag]⟩
    (fun u hu => (List.mem_singleton.mp hu ▸ hs.written : u.Written m₁)) fun y hm =>
      hs.plain y (hm _ (by simp))
  have hfree : T.tag.alloc = false := by rw [hTtag]
  rw [hTbp, hTtag] at hwrite
  refine ⟨m₁, m₂, hwrite, habove, hset, ?_, hplain⟩
  have h' := h.filed
  rw [vacant_append, vacant_cons_alloc halloc] at h'
  rw [vacant_withPrev]
  refine .retile h'.files h'.covers htiled rfl ?_ hplain
  rw [vacant_append, vacant_cons_free hfree, vacant_withPrev]
  exact (List.sublist_cons_self _ _).append_left _

/-- The allocated block `t` becomes free. -/
theorem free_spec (h : Sound r first s (L ++ t :: u :: R) idx) (halloc : t.tag.alloc = true) :
    ∃ s' b row' idx', Store.free r t.bp s = .ok () s' ∧
      Merged ⟨t.bp, ⟨t.tag.size, t.tag.prevAlloc, false⟩⟩
        (L ++ ⟨t.bp, ⟨t.tag.size, t.tag.prevAlloc, false⟩⟩ :: u.withPrev false :: R)
          idx b row' idx' ∧
      Sound r first s' row' idx' ∧ Kept first (held row') s.memory s'.memory := by
  have mt : t ∈ L ++ t :: u :: R := by simp
  obtain ⟨m₁, m₂, hwrite, habove, hset, hfiled, hplain⟩ := h.vacate halloc
  obtain ⟨s', b, row', idx', hrun, hmerged, hsound, hkept⟩ := hfiled.coalesce_spec rfl h.spaced_left
    fun x hx => h.spaced x (by simp [hx])
  refine ⟨s', b, row', idx', ?_, hmerged, hsound, ?_⟩
  · have hrun : Store.coalesce r t.bp ⟨m₂, s.buckets⟩ = .ok b s' := hrun
    simp only [Store.free, StoreM.bind_apply, StoreM.lift_reading, StoreM.lift_writing,
      h.tiled.tag mt, hwrite, habove, hset, StoreM.discard_apply, hrun]
  · intro x hx
    rw [hkept x hx]
    exact hplain x fun v hv => Guarded.not_marks (hmerged.held_eq ▸ hx) hfiled.tiled hv

end Sound

end BoundaryTag
