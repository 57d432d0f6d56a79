/-
  BoundaryTag.Proofs.Carving — the row and the index that placing and growing leave, tile by tile.

  `Merged` and `Carved` leave open which neighbours were merged. In a sound row that is known: on
  either side of a free tile that is not filed there is one free tile or none. So what placing
  leaves can be written down, and so can what the next release makes of it (`Carved.undone`).

  Proved: what merging leaves, by which neighbours are free (`Merged.alone`, `Merged.above`,
  `Merged.last`); the row and the index after placing (`Carved.exact`), and that freeing what
  was placed in a settled block restores both (`Carved.undone`).
-/

import BoundaryTag.Proofs.Release
import BoundaryTag.Proofs.Search

namespace BoundaryTag

variable {r : Region} {s : Store} {high first a b size : Nat} {p q : Bool}
  {row row' row'' L R W V : List Tile} {idx idx' idx'' : Index} {t u v w x : Tile}

/-! ## Where a tile is in its row -/

theorem Row.before (h : Row high a p (L ++ t :: R)) (hx : x ∈ L) :
    x.stop ≤ t.bp ∧ 32 ≤ x.tag.size := by
  obtain ⟨c, q, hL, hR⟩ := Row.append_cons.mp h
  obtain ⟨-, hstop, -, h32⟩ := hL.bounds hx
  rw [hR.head.1]
  exact ⟨hstop, h32⟩

theorem Row.behind (h : Row high a p (L ++ t :: u :: R)) (hx : x ∈ u :: R) : t.stop ≤ x.bp := by
  obtain ⟨c, q, -, hR⟩ := Row.append_cons.mp h
  obtain ⟨-, hrest⟩ := hR.tail (.inl (List.cons_ne_nil _ _))
  exact (hrest.bounds hx).1

/-- Free tiles before one that follows an allocated one. -/
theorem Spans.nil_of_prev (h : Spans a p (W ++ t :: V) b q) (hW : ∀ x ∈ W, x.tag.alloc = false)
    (ht : t.tag.prevAlloc = true) : W = [] := by
  rcases List.eq_nil_or_concat W with hnil | ⟨W', w, hlast⟩
  · exact hnil
  · rw [List.concat_eq_append] at hlast
    subst hlast
    obtain ⟨c, x, hspan, hrest⟩ := spans_append.mp h
    obtain ⟨_, _, -, -, -, -, -, -, hw⟩ := spans_append.mp hspan
    rw [hW w (by simp), ← hrest.2.1, ht] at hw
    cases hw

theorem gap_eq (h : t.tag.prevAlloc = true) (hfree : t.tag.alloc = false) (hstop : t.stop = b) :
    gap t.bp b = t := by
  obtain ⟨bp, size, prevAlloc, alloc⟩ := t
  simp only at h hfree
  subst h hfree hstop
  simp only [gap, Tile.stop, Nat.add_sub_cancel_left]

/-- Free tiles before an allocated one, when that comes first. -/
theorem nil_of_next {y : Tile} {Y : List Tile} (h : u :: R = V ++ y :: Y)
    (hV : ∀ x ∈ V, x.tag.alloc = false) (hu : u.tag.alloc = true) :
    V = [] ∧ y = u ∧ Y = R := by
  cases V with
  | nil =>
    obtain ⟨rfl, rfl⟩ := List.cons.inj h
    exact ⟨rfl, rfl, rfl⟩
  | cons v V =>
    obtain ⟨rfl, -⟩ := List.cons.inj h
    rw [hV u List.mem_cons_self] at hu
    cases hu

/-! ## Merging in a sound row -/

namespace Merged

/-- The tiles that are merged stand on either side of `t`. -/
theorem inv (h : Merged t (L ++ t :: R) idx b row' idx') (hL : t ∉ L) (hR : t ∉ R) :
    ∃ X W V y Y, L = X ++ W ∧ R = V ++ y :: Y ∧ Spans b true (W ++ t :: V) y.bp false ∧
      (∀ x ∈ W ++ t :: V, x.tag.alloc = false) ∧
      y.tag.alloc = true ∧ row' = X ++ gap b y.bp :: y :: Y ∧
      idx' = ((W ++ V).foldl (fun i x => i.erase x.entry) idx).insert (gap b y.bp).entry := by
  generalize hrow : L ++ t :: R = row at h
  obtain @⟨X, W, V, Y, y, b, idx, hspan, hfree, hy⟩ := h
  rw [List.append_assoc, List.cons_append, ← List.append_assoc] at hrow
  obtain ⟨rfl, -, rfl⟩ := (List.append_cons_inj_of_notMem hL hR).mp hrow
  exact ⟨X, W, V, y, Y, rfl, rfl, hspan, hfree, hy, rfl, rfl⟩

/-- Neither neighbour is free. -/
theorem alone (h : Merged t (L ++ t :: u :: R) idx b row' idx') (hL : t ∉ L) (hR : t ∉ u :: R)
    (hp : t.tag.prevAlloc = true) (hu : u.tag.alloc = true) :
    b = t.bp ∧ row' = L ++ gap t.bp u.bp :: u :: R ∧ idx' = idx.insert (gap t.bp u.bp).entry := by
  obtain ⟨X, W, V, y, Y, rfl, hright, hspan, hfree, hy, rfl, rfl⟩ := h.inv hL hR
  obtain rfl := hspan.nil_of_prev (fun x hx => hfree x (by simp [hx])) hp
  obtain ⟨rfl, rfl, rfl⟩ := nil_of_next hright (fun x hx => hfree x (by simp [hx])) hu
  obtain rfl : t.bp = b := hspan.1
  simp

/-- The tile above is free. -/
theorem above (h : Merged t (L ++ t :: u :: v :: R) idx b row' idx') (hL : t ∉ L)
    (hR : t ∉ u :: v :: R) (hp : t.tag.prevAlloc = true) (hu : u.tag.alloc = false)
    (hv : v.tag.alloc = true) :
    b = t.bp ∧ row' = L ++ gap t.bp v.bp :: v :: R ∧
    idx' = (idx.erase u.entry).insert (gap t.bp v.bp).entry := by
  obtain ⟨X, W, V, y, Y, rfl, hright, hspan, hfree, hy, rfl, rfl⟩ := h.inv hL hR
  obtain rfl := hspan.nil_of_prev (fun x hx => hfree x (by simp [hx])) hp
  obtain rfl : t.bp = b := hspan.1
  cases V with
  | nil =>
    obtain ⟨rfl, -⟩ := List.cons.inj hright
    rw [hu] at hy
    cases hy
  | cons w V =>
    obtain ⟨rfl, hrest⟩ := List.cons.inj hright
    obtain ⟨rfl, rfl, rfl⟩ := nil_of_next hrest (fun x hx => hfree x (by simp [hx])) hv
    simp

/-- The last tile before the end is merged with a free one before it, if there is one. -/
theorem last {e : Tile} (h : Merged t (L ++ t :: e :: []) idx b row' idx') (hL : t ∉ L)
    (hR : t ∉ [e]) (hs : Spaced L) (he : e.tag.alloc = true) :
    ∃ X W, L = X ++ W ∧
      (W = [] ∧ t.tag.prevAlloc = true ∧ b = t.bp ∨ ∃ w, W = [w] ∧ w.tag.alloc = false ∧ b = w.bp) ∧
      row' = X ++ gap b e.bp :: e :: [] ∧
      idx' = (W.foldl (fun i x => i.erase x.entry) idx).insert (gap b e.bp).entry := by
  obtain ⟨X, W, V, y, Y, rfl, hright, hspan, hfree, hy, rfl, rfl⟩ := h.inv hL hR
  obtain ⟨rfl, rfl, rfl⟩ := nil_of_next hright (fun x hx => hfree x (by simp [hx])) he
  refine ⟨X, W, rfl, ?_, rfl, by rw [List.append_nil]⟩
  rcases List.eq_nil_or_concat W with hnil | ⟨W', w, hlast⟩
  · subst hnil
    exact .inl ⟨rfl, hspan.2.1, hspan.1.symm⟩
  · -- behind an allocated tile there is but one free one
    rw [List.concat_eq_append] at hlast
    subst hlast
    have hw : w.tag.alloc = false := hfree w (by simp)
    rw [List.append_assoc] at hspan
    obtain rfl := hspan.nil_of_prev (fun x hx => hfree x (by simp [hx])) (hs w (by simp) hw)
    exact .inr ⟨w, rfl, hw, hspan.1.symm⟩

end Merged

/-! ## Placing, and freeing again -/

section Placing

variable (hs : Sound r first s (L ++ t :: v :: R) idx) (hfree : t.tag.alloc = false)

include hs hfree

theorem Sound.beside : t.tag.prevAlloc = true ∧ v.tag.alloc = true ∧ v.tag.prevAlloc = false ∧
    v.bp = t.stop := by
  obtain ⟨⟨-, -, -, -, hstop, -⟩, hprev⟩ := hs.tiled.row.spans_one
  rw [hfree] at hprev
  refine ⟨hs.spaced t (by simp) hfree, ?_, hprev, hstop.symm⟩
  cases hv : v.tag.alloc with
  | true => rfl
  | false =>
    rw [hs.spaced v (by simp) hv] at hprev
    cases hprev

omit hfree in
/-- A tile that starts in the space of `t` is none of the others. -/
theorem Sound.not_mem_of_within (h₁ : t.bp ≤ x.bp) (h₂ : x.bp < t.stop) : x ∉ L ∧ x ∉ v :: R := by
  constructor
  · intro hx
    have hstop := (hs.tiled.row.before hx).1
    have h32 := (hs.tiled.row.before hx).2
    simp only [Tile.stop] at hstop
    omega
  · intro hx
    have := hs.tiled.row.behind hx
    omega

/-- The row and the index when the first `size` bytes of `t` are allocated. -/
theorem Carved.exact (h32 : 32 ≤ size) (hc : Carved L t v R size idx' row' idx'') :
    t.tag.size - size < 32 ∧ row' = L ++ t.front t.tag.size :: v.withPrev true :: R ∧ idx'' = idx' ∨
    32 ≤ t.tag.size - size ∧ row' = L ++ t.front size :: t.back size :: v :: R ∧
    idx'' = idx'.insert (t.back size).entry := by
  obtain ⟨-, hv, hvprev, hvbp⟩ := hs.beside hfree
  cases hc with
  | whole hsmall => exact .inl ⟨hsmall, rfl, rfl⟩
  | part hlarge hmerged =>
    refine .inr ⟨hlarge, ?_⟩
    have hself : v.withPrev false = v := by rw [← hvprev, Tile.withPrev_self]
    obtain ⟨hL, hR⟩ := hs.not_mem_of_within (x := t.back size) (by simp only [Tile.back]; omega)
        (by simp only [Tile.back, Tile.stop]; omega)
    have hout : t.back size ∉ L ++ [t.front size] := by
      rw [List.mem_append, List.mem_singleton, not_or]
      exact ⟨hL, fun heq => Bool.noConfusion (congrArg (fun x => x.tag.alloc) heq)⟩
    rw [List.append_cons, hself] at hmerged
    obtain ⟨-, hrow, hidx⟩ := hmerged.alone hout hR rfl hv
    have hgap : gap (t.back size).bp v.bp = t.back size := by
      refine gap_eq rfl rfl ?_
      simp only [hvbp, Tile.back, Tile.stop]
      omega
    rw [hgap] at hrow hidx
    exact ⟨by rw [hrow, ← List.append_cons], hidx⟩

/-- What placing made of a settled block, freeing undoes. -/
theorem Carved.undone (h32 : 32 ≤ size) (hset : idx.Settled t.entry)
    (hc : Carved L t v R size (idx.erase t.entry) row' idx') (hn : ∀ c, (idx' c).Nodup) :
    ∃ u R', row' = L ++ t.front (allotted size t.tag.size) :: u :: R' ∧
      ∀ b row'' idx'', Merged ⟨t.bp, ⟨allotted size t.tag.size, t.tag.prevAlloc, false⟩⟩
        (L ++ ⟨t.bp, ⟨allotted size t.tag.size, t.tag.prevAlloc, false⟩⟩ :: u.withPrev false :: R')
          idx' b row'' idx'' →
        row'' = L ++ t :: v :: R ∧ idx'' = idx := by
  obtain ⟨hprev, hv, hvprev, hvbp⟩ := hs.beside hfree
  have hgap : gap t.bp v.bp = t := gap_eq hprev hfree hvbp.symm
  have hpos : 32 ≤ t.tag.size := hs.tiled.row.size_of_free (by simp) hfree
  rcases hc.exact hs hfree h32 with ⟨hsmall, rfl, rfl⟩ | ⟨hlarge, rfl, rfl⟩
  · have htotal : allotted size t.tag.size = t.tag.size := if_neg (by omega)
    have hself : (v.withPrev true).withPrev false = v := by
      rw [← hvprev]
      rfl
    have htile : (⟨t.bp, ⟨t.tag.size, t.tag.prevAlloc, false⟩⟩ : Tile) = t := by rw [← hfree]
    refine ⟨_, _, by rw [htotal], ?_⟩
    intro b row'' idx'' hm
    rw [htotal, htile, hself] at hm
    obtain ⟨hL, hR⟩ :=
      hs.not_mem_of_within (x := t) (Nat.le_refl _) (by simp only [Tile.stop]; omega)
    obtain ⟨-, rfl, rfl⟩ := hm.alone hL hR hprev hv
    rw [hgap]
    exact ⟨rfl, hset⟩
  · have hpart : allotted size t.tag.size = size := if_pos hlarge
    refine ⟨_, _, by rw [hpart], ?_⟩
    intro b row'' idx'' hm
    rw [hpart] at hm
    obtain ⟨hL, hR⟩ :=
      hs.not_mem_of_within (x := ⟨t.bp, ⟨size, t.tag.prevAlloc, false⟩⟩) (Nat.le_refl _)
      (by simp only [Tile.stop]; omega)
    have hout : (⟨t.bp, ⟨size, t.tag.prevAlloc, false⟩⟩ : Tile) ∉
        (t.back size).withPrev false :: v :: R := by
      rw [List.mem_cons, not_or]
      refine ⟨fun heq => ?_, hR⟩
      have hbp : t.bp = t.bp + size := congrArg Tile.bp heq
      omega
    obtain ⟨-, rfl, rfl⟩ := hm.above hL hout hprev rfl hv
    rw [Tile.withPrev_entry, Index.erase_insert (hn _), hgap]
    exact ⟨rfl, hset⟩

end Placing

end BoundaryTag
