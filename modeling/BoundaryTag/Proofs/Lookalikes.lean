/-
  BoundaryTag.Proofs.Lookalikes — which words could be taken for the header of an allocated block.

  An address is judged by the word below it, and first of all by bit 0 of that word. Of
  what a heap writes, only the headers of allocated blocks have that bit, as sizes and
  links are multiples of a word.

  `Headed K` says that the aligned words with bit 0 set are the last one below the top
  and headers of blocks at `K`, and a step `Brings` one such set to another. There is a
  rule for each kind of step.

  Proved: what filing, splitting, growing in place and freeing of blocks bring headers to
  (`split_brings`, `Sound.free_brings`).
-/

import BoundaryTag.Proofs.Footprint

namespace BoundaryTag

open Backed

/-! ## Bit 0 -/

/-- Bit 0 of a word is that of its first byte. -/
theorem Memory.word_mod_two (m : Memory) (a : Nat) : m.word a % 2 = (m.byte a).toNat % 2 := by
  simp only [word, read, List.range, List.range.loop, List.map, ofBytes, Nat.add_zero]
  omega

theorem Tag.encode_mod_two {t : Tag} (h : t.size % 8 = 0) : t.encode % 2 = t.alloc.toNat := by
  rw [encode_eq_add h]
  cases t.alloc <;> simp only [Bool.toNat_true, Bool.toNat_false] <;> omega

section Rules

variable {σ ε α β : Type} [Backed σ]

/-- Every aligned word with bit 0 set is the header of a block at `K`, or the last word below
    the top. -/
def Headed (K : Nat → Prop) (s : σ) : Prop := ∀ a, a % 8 = 0 → (memory s).word a % 2 = 1 →
    a + 8 = top s ∨ K (a + 8)

/-- If the step answers, it has brought the headers at `K` to headers at `J`. -/
def Brings (K : Nat → Prop) (J : α → Nat → Prop) (x : EStateM ε σ α) (s : σ) : Prop :=
  ∀ a s', x s = .ok a s' → Headed K s → Headed (J a) s'

variable {K K₁ : Nat → Prop} {J J' : α → Nat → Prop} {s s' : σ} {x y : EStateM ε σ α}
  {f : α → EStateM ε σ β} {L : β → Nat → Prop}

theorem Headed.mono (h : Headed K s) (hK : ∀ q, K q → K₁ q) : Headed K₁ s :=
  fun a ha hodd => (h a ha hodd).imp_right (hK _)

theorem Headed.same (h : Headed K s) (hmem : memory s' = memory s) (htop : top s' = top s) :
    Headed K s' := by
  unfold Headed
  rw [hmem, htop]
  exact h

namespace Brings

theorem mono (h : Brings K J x s) (hK : ∀ a q, J a q → J' a q) : Brings K J' x s :=
  fun a s' hrun hs => (h a s' hrun hs).mono (hK a)

/-- A step that changes neither memory nor top. -/
theorem quiet (hx : ∀ a s', x s = .ok a s' → memory s' = memory s ∧ top s' = top s) :
    Brings K (fun _ => K) x s := by
  intro a s' hrun hs
  obtain ⟨hmem, htop⟩ := hx a s' hrun
  exact hs.same hmem htop

protected theorem pure (a : α) (hK : ∀ q, K q → J a q) : Brings K J (pure a : EStateM ε σ α) s := by
  intro b s' hrun hs
  cases hrun
  exact hs.mono hK

theorem bind (hx : Brings K J x s) (hf : ∀ a s₁, x s = .ok a s₁ → Brings (J a) L (f a) s₁) :
    Brings K L (x >>= f) s := by
  intro b s' hrun hs
  rw [bind_run] at hrun
  rcases hx₁ : x s with ⟨a, s₁⟩ | ⟨e, s₁⟩
  · rw [hx₁] at hrun
    exact hf a s₁ hx₁ b s' hrun (hx a s₁ hx₁ hs)
  · rw [hx₁] at hrun
    cases hrun

/-- The first part ends as is known. -/
theorem step {a : α} {s₁ : σ} (hrun : x s = .ok a s₁) (hx : Headed K s → Headed K₁ s₁)
    (hf : Brings K₁ L (f a) s₁) : Brings K L (x >>= f) s := by
  intro b s' hrun' hs
  rw [bind_run, hrun] at hrun'
  exact hf b s' hrun' (hx hs)

/-- The first part stops. -/
theorem halt {e : ε} (hrun : x s = .error e s') : Brings K L (x >>= f) s := by
  intro b s₁ hrun'
  rw [bind_run, hrun] at hrun'
  cases hrun'

theorem ite {c : Prop} [Decidable c] (hx : c → Brings K J x s) (hy : ¬ c → Brings K J y s) :
    Brings K J (if c then x else y) s := by
  by_cases hc : c
  · rw [if_pos hc]
    exact hx hc
  · rw [if_neg hc]
    exact hy hc

theorem congr (hy : Brings K J y s) (hs : x s = y s) : Brings K J x s := by
  unfold Brings
  rw [hs]
  exact hy

theorem bind_get {g : σ → EStateM ε σ β} (hg : Brings K L (g s) s) :
    Brings K L ((get : EStateM ε σ σ) >>= g) s :=
  .step rfl id hg

protected theorem discard (hx : Brings K (fun _ => K₁) x s) :
    Brings K (fun _ => K₁) (discard x : EStateM ε σ Unit) s := by
  intro a s' hrun hs
  rw [discard_run] at hrun
  rcases hx₁ : x s with ⟨b, s₁⟩ | ⟨e, s₁⟩
  · rw [hx₁] at hrun
    cases hrun
    exact hx b s' hx₁ hs
  · rw [hx₁] at hrun
    cases hrun

end Brings

end Rules

/-! ## The codec -/

section Codec

variable {α β : Type} {K J : Nat → Prop} {L : β → Nat → Prop} {m : Memory}

namespace Brings

theorem writing_except {x : Except Fault α} {f : α → Writing β}
    (hf : ∀ a, x = .ok a → Brings K L (f a) m) : Brings K L (liftM x >>= f) m := by
  cases hx : x with
  | error e => exact .halt (Writing.lift_except _ _)
  | ok a => exact .step (Writing.lift_except _ _) id (hf a hx)

theorem writing_reading {x : Reading α} {f : α → Writing β}
    (hf : ∀ a, x m = .ok a → Brings K L (f a) m) : Brings K L (liftM x >>= f) m := by
  cases hx : x m with
  | error e => exact .halt (by rw [Writing.lift_reading, hx])
  | ok a => exact .step (by rw [Writing.lift_reading, hx]) id (hf a hx)

end Brings

theorem headed_memory : Headed K m ↔ ∀ a, a % 8 = 0 → m.word a % 2 = 1 → K (a + 8) := by
  constructor
  · intro h a ha hodd
    exact (h a ha hodd).resolve_left (Nat.succ_ne_zero _)
  · intro h a ha hodd
    exact .inr (h a ha hodd)

variable {r : Region} {addr bp size : Nat}

/-- What is written at `addr` is a header at `addr + 8`, or has bit 0 clear. -/
theorem brings_write {w : Nat} (ha : addr % 8 = 0) (hK : ∀ q, K q → q ≠ addr + 8 → J q)
    (hw : Headed K m → w % 2 = 1 → J (addr + 8)) :
    Brings K (fun _ => J) (r.write addr w) m := by
  intro u m' hrun hm
  obtain rfl : m' = m.setWord addr w := by
    unfold Region.write at hrun
    by_cases hin : r.HoldsWord addr
    · rw [if_pos hin] at hrun
      injection hrun with _ hm'
      exact hm'.symm
    · rw [if_neg hin] at hrun
      cases hrun
  rw [headed_memory]
  intro b hb hodd
  by_cases hba : b = addr
  · subst hba
    apply hw hm
    rw [Memory.word_setWord_same, wordLimit] at hodd
    omega
  · rw [Memory.word_setWord_apart m w (by omega)] at hodd
    exact hK _ (headed_memory.mp hm b hb hodd) (by omega)

theorem brings_writeAllocated (h8 : bp % 8 = 0) {p : Bool} :
    Brings K (fun _ q => K q ∨ q = bp) (r.writeAllocated bp size p) m := by
  refine .writing_except fun addr haddr => ?_
  obtain ⟨-, -, hle, rfl⟩ := Region.header_ok.mp haddr
  exact brings_write (by omega) (fun q hq _ => .inl hq) fun _ _ => .inr (by omega)

/-- Where a free block is written there is no header of an allocated one. -/
theorem brings_writeFree (h8 : bp % 8 = 0) (hs : size % 8 = 0) {p : Bool} :
    Brings K (fun _ q => K q ∧ q ≠ bp) (r.writeFree bp size p) m := by
  have heven : Tag.encode ⟨size, p, false⟩ % 2 = 0 := Tag.encode_mod_two hs
  refine .writing_except fun addr haddr => ?_
  obtain ⟨-, -, hle, rfl⟩ := Region.header_ok.mp haddr
  refine .bind (J := fun _ q => K q ∧ q ≠ bp)
    (brings_write (by omega) (fun q hq hne => ⟨hq, by omega⟩) fun _ hw => by omega) fun _ m₁ _ => ?_
  refine .writing_except fun stop hstop => .writing_except fun addr haddr => ?_
  obtain rfl := eq_of_checkedAdd hstop
  have hle' := le_of_checkedSub haddr
  obtain rfl := eq_of_checkedSub haddr
  simp only [doubleWord] at hle' ⊢
  exact brings_write (by omega) (fun q hq _ => hq) fun _ hw => by omega

/-- An allocated block stays one, and so does a free one. -/
theorem brings_setPrevAlloc (h8 : bp % 8 = 0) {p : Bool} :
    Brings K (fun _ => K) (r.setPrevAlloc bp p) m := by
  refine .writing_reading fun tag htag => ?_
  obtain ⟨hlow, hhigh, rfl⟩ := Region.tag_ok.mp htag
  obtain ⟨w, hw⟩ : ∃ w, w = Tag.encode
      ⟨(Tag.decode (m.word (bp - 8))).size, p, (Tag.decode (m.word (bp - 8))).alloc⟩ := ⟨_, rfl⟩
  -- the new header has bit 0 of the old one, so if it counts the old one did
  have hodd : w % 2 = m.word (bp - 8) % 2 := by
    rw [hw, Tag.encode_mod_two (t := ⟨_, p, _⟩) (Tag.decode_size_mod _)]
    simp only [Tag.decode]
    rcases Nat.mod_two_eq_zero_or_one (m.word (bp - 8)) with h | h <;> rw [h] <;> rfl
  rw [← hw]
  refine .ite (fun _ => .writing_except fun addr haddr => ?_) fun _ => .pure _ fun _ hq => hq
  obtain ⟨-, -, hle, rfl⟩ := Region.header_ok.mp haddr
  refine .bind (J := fun _ => K) (brings_write (by omega) (fun q hq _ => hq) fun hm h =>
    headed_memory.mp hm _ (by omega) (hodd ▸ h)) ?_
  intro _ m₁ _
  refine .ite (fun hfree => .writing_reading fun addr haddr => ?_) fun _ => .pure _ fun _ hq => hq
  obtain ⟨h16, rfl⟩ := Region.footer_ok haddr
  have hsize := Tag.decode_size_mod (m₁.word (bp - 8))
  have hlast : w % 2 = 0 := by
    rw [hw, Tag.encode_mod_two (t := ⟨_, p, _⟩) (Tag.decode_size_mod _)]
    simp_all
  exact brings_write (by omega) (fun q hq _ => hq) fun _ h => by omega

theorem even_of_encodeLink {o : Option Nat} {n : Nat} (hlow : r.low % 8 = 0)
    (ho : ∀ p, o = some p → p % 8 = 0) (hrun : r.encodeLink o = .ok n) : n % 2 = 0 := by
  cases o with
  | none => exact (Except.ok.inj hrun) ▸ rfl
  | some p =>
    have hp := ho p rfl
    have hle := le_of_checkedSub hrun
    rw [eq_of_checkedSub hrun]
    omega

theorem brings_setNext (hlow : r.low % 8 = 0) (h8 : bp % 8 = 0) {next : Option Nat}
    (hnext : ∀ n, next = some n → n % 8 = 0) :
    Brings K (fun _ => K) (r.setNext bp next) m := by
  refine .writing_except fun offset hoffset => ?_
  have heven := even_of_encodeLink hlow hnext hoffset
  exact brings_write h8 (fun q hq _ => hq) fun _ hw => by omega

theorem brings_setPrev (hlow : r.low % 8 = 0) (h8 : bp % 8 = 0) {prev : Option Nat}
    (hprev : ∀ p, prev = some p → p % 8 = 0) :
    Brings K (fun _ => K) (r.setPrev bp prev) m := by
  refine .writing_except fun addr haddr => .writing_except fun offset hoffset => ?_
  have heven := even_of_encodeLink hlow hprev hoffset
  rw [eq_of_checkedAdd haddr, wordSize]
  exact brings_write (by omega) (fun q hq _ => hq) fun _ hw => by omega

end Codec

/-! ## Filing -/

section Filing

variable {α β : Type} {K : Nat → Prop} {J : α → Nat → Prop} {L : β → Nat → Prop} {s : Store}

theorem headed_store : Headed K s ↔ Headed K s.memory := Iff.rfl

namespace Brings

theorem store_except {x : Except Fault α} {f : α → StoreM β}
    (hf : ∀ a, x = .ok a → Brings K L (f a) s) : Brings K L (liftM x >>= f) s := by
  cases hx : x with
  | error e => exact .halt (StoreM.lift_except _ _)
  | ok a => exact .step (StoreM.lift_except _ _) id (hf a hx)

theorem store_reading {x : Reading α} {f : α → StoreM β}
    (hf : ∀ a, x s.memory = .ok a → Brings K L (f a) s) : Brings K L (liftM x >>= f) s := by
  cases hx : x s.memory with
  | error e => exact .halt (by rw [StoreM.lift_reading, hx])
  | ok a => exact .step (by rw [StoreM.lift_reading, hx]) id (hf a hx)

theorem store_writing {x : Writing α} (hx : Brings K J x s.memory) :
    Brings K J (liftM x : StoreM α) s := by
  intro a s' hrun hs
  rw [StoreM.lift_writing] at hrun
  rcases hx₁ : x s.memory with ⟨b, m⟩ | ⟨f, m⟩
  · rw [hx₁] at hrun
    cases hrun
    exact hx a m hx₁ hs
  · rw [hx₁] at hrun
    cases hrun

theorem setHead (cls : Nat) (bp : Option Nat) : Brings K (fun _ => K) (Store.setHead cls bp) s := by
  refine .quiet fun _ s' hrun => ?_
  rw [Store.setHead_apply] at hrun
  cases hrun
  exact ⟨rfl, rfl⟩

/-- What is looked at is known. -/
theorem look {x : Reading α} {f : α → StoreM β} {a : α} (hrun : x s.memory = .ok a)
    (hf : Brings K L (f a) s) : Brings K L (liftM x >>= f) s :=
  .step (by rw [StoreM.lift_reading, hrun]) id hf

/-- A write that is known to be done. -/
theorem put {N : Nat → Prop} {x : Writing Unit} {f : Unit → StoreM β} {m : Memory}
    (hrun : x s.memory = .ok () m) (hx : Brings K (fun _ => N) x s.memory)
    (hf : Brings N L (f ()) ⟨m, s.buckets⟩) : Brings K L (liftM x >>= f) s := by
  have hput : (liftM x : StoreM Unit) s = .ok () ⟨m, s.buckets⟩ := by rw [StoreM.lift_writing, hrun]
  refine .step hput (fun hs => ?_) hf
  exact hx () m hrun (headed_store.mp hs)

end Brings

variable {r : Region} {idx : Index} {e : Entry} {bp : Nat} (hlow : r.low % 8 = 0)
  (hidx : ∀ c, ∀ e ∈ idx c, e.bp % 8 = 0)

include hlow

/-- The member before a block, or the head of its list, gets a new next link. -/
theorem brings_setBefore (prev : Option Nat) (cls : Nat) {next : Option Nat}
    (hnext : ∀ n, next = some n → n % 8 = 0) :
    (∀ p, prev = some p → p % 8 = 0) → Brings K (fun _ => K) (match prev with
      | some prev => liftM (r.setNext prev next)
      | none => Store.setHead cls next : StoreM Unit) s := by
  intro hprev
  cases prev with
  | none => exact .setHead _ _
  | some p => exact .store_writing (brings_setNext hlow (hprev p rfl) hnext)

/-- The member behind a block, if there is one, gets a new previous link. -/
theorem brings_setBehind (next : Option Nat) {prev : Option Nat}
    (hprev : ∀ p, prev = some p → p % 8 = 0) :
    (∀ n, next = some n → n % 8 = 0) →
    Brings K (fun _ => K)
      (if let some next := next then liftM (r.setPrev next prev) else pure () : StoreM Unit) s := by
  intro hnext
  cases next with
  | none => exact .pure _ fun _ hq => hq
  | some n => exact .store_writing (brings_setPrev hlow (hnext n rfl) hprev)

namespace Files

include hidx

theorem insert_brings (h : Files r s idx) (h8 : bp % 8 = 0) :
    Brings K (fun _ => K) (Store.insert r bp) s := by
  have hself : ∀ p, some bp = some p → p % 8 = 0 := fun p hp => Option.some.inj hp ▸ h8
  unfold Store.insert
  refine .store_reading fun size _ => .store_except fun cls _ =>
    .bind_get (.store_reading fun ⟨prev, next⟩ hslot => ?_)
  obtain ⟨hprev, hnext⟩ := h.slot_filed (P := fun p => p % 8 = 0) hidx hslot
  refine .bind (.store_writing (brings_setNext hlow h8 hnext)) fun _ s₁ _ => ?_
  refine .bind (.store_writing (brings_setPrev hlow h8 hprev)) fun _ s₂ _ => ?_
  cases next with
  | none => exact brings_setBefore hlow prev cls hself hprev
  | some n =>
    refine .bind (.store_writing (brings_setPrev hlow (hnext n rfl) hself)) fun _ s₃ _ => ?_
    exact brings_setBefore hlow prev cls hself hprev

theorem remove_brings (h : Files r s idx) {c : Nat} (he : e ∈ idx c) :
    Brings K (fun _ => K) (Store.remove r e.bp) s := by
  unfold Store.remove
  refine .store_reading fun size _ => .store_except fun cls _ =>
    .store_reading fun ⟨next, prev⟩ hlinks => ?_
  obtain ⟨hnext, hprev⟩ := h.links_filed (P := fun p => p % 8 = 0) hidx he hlinks
  cases prev with
  | none =>
    exact .bind_get (.ite (fun _ => .halt rfl) fun _ => .bind (.setHead _ _) fun _ s _ =>
      brings_setBehind hlow next hprev hnext)
  | some p =>
    exact .bind (.store_writing (brings_setNext hlow (hprev p rfl) hnext)) fun _ s _ =>
      brings_setBehind hlow next hprev hnext

end Files

end Filing

/-! ## Blocks -/

section Blocks

variable {K : Nat → Prop} {first : Nat} {r : Region} {s : Store} {row L R : List Tile} {idx : Index}
  {es : List Entry} {t u v : Tile}

theorem Filed.aligned (h : Filed r first s row idx es) (c : Nat) : ∀ e ∈ idx c, e.bp % 8 = 0 := by
  intro e he
  obtain ⟨t, ht, -, rfl⟩ := mem_vacant.mp (h.sublist.subset ((h.covers c e).mp he).2)
  exact h.tiled.row.aligned h.tiled.aligned ht

variable (hlow : r.low % 8 = 0)

include hlow

namespace Filed

theorem merge_brings {X M Y : List Tile} {y : Tile} {b : Nat}
    (h : Filed r first s (X ++ (M ++ y :: Y)) idx (vacant X ++ (es ++ vacant (y :: Y))))
    (hM : Spans b true M y.bp false) (hn : M ≠ []) :
    Brings K (fun _ => K) (Store.merge r b (y.bp - b) es) s := by
  induction es generalizing s idx with
  | nil =>
    obtain ⟨m', hwrite, -, hfiled⟩ := h.clear hM hn
    have h8 : b % 8 = 0 := hfiled.tiled.row.aligned hfiled.tiled.aligned (t := gap b y.bp) (by simp)
    refine .put hwrite (.mono (brings_writeFree h8 hM.length.1) fun _ q hq => hq.1) ?_
    exact .bind (hfiled.files.insert_brings hlow hfiled.aligned h8) fun _ _ _ =>
      .pure _ fun _ hq => hq
  | cons e es ih =>
    obtain ⟨s₁, hrun, h₁, -⟩ := h.remove
    exact .step hrun (h.files.remove_brings hlow h.aligned (h.mem (by simp)) _ _ hrun) (ih h₁)

theorem coalesce_brings (h : Filed r first s (L ++ t :: u :: R) idx (vacant L ++ vacant (u :: R)))
    (hfree : t.tag.alloc = false) (hL : Spaced L) (hR : Spaced R) :
    Brings K (fun _ => K) (Store.coalesce r t.bp) s := by
  obtain ⟨X, W, V, Y, y, b, ha, hrun⟩ := h.merges hfree hL hR
  refine .congr ?_ (hrun h)
  rw [ha.row_eq, ha.vacant_eq] at h
  exact h.merge_brings hlow ha.spans (by simp)

end Filed

theorem split_brings {size : Nat} {a : Bool} (hole : Holed r s.memory first L t (v :: R))
    (htag : r.tag t.bp s.memory = .ok ⟨t.tag.size, t.tag.prevAlloc, a⟩) (hf : Files r s idx)
    (hc : Covers idx (vacant L ++ vacant (v :: R))) (hL : Spaced L) (hR : Spaced R)
    (h8 : size % 8 = 0) (h32 : 32 ≤ size) (hle : size ≤ t.tag.size) :
    Brings K (fun _ q => K q ∨ q = t.bp) (Store.split r t.bp size) s := by
  have ht : t.bp % 8 = 0 := hole.row.aligned hole.aligned (by simp)
  have hv : v.bp % 8 = 0 := hole.row.aligned hole.aligned (by simp)
  obtain ⟨⟨-, -, ht8, -, hvbp, -⟩, -⟩ := hole.row.spans_one
  refine .look htag
    (.ite (fun hlt => absurd hlt (Nat.not_lt.mpr hle)) fun _ => .ite (fun hrest => ?_) fun _ => ?_)
  · obtain ⟨m₁, m₂, m₃, hwrite₁, habove₁, hwrite₂, habove₂, hset, hfiled, hspaced, -⟩ :=
      split_rest hole hf hc hL h8 h32 hrest
    refine .put hwrite₁ (brings_writeAllocated ht) (.look habove₁ ?_)
    refine .put hwrite₂ (.mono (brings_writeFree (by omega) (by simp only; omega)) fun _ q hq =>
      hq.1) (.look habove₂ ?_)
    have hrest : Brings (fun q => K q ∨ q = t.bp) (fun _ q => K q ∨ q = t.bp)
        (Store.coalesce r (t.back size).bp) ⟨m₃, s.buckets⟩ :=
      hfiled.coalesce_brings hlow rfl hspaced hR
    exact .put hset (brings_setPrevAlloc hv) (.discard hrest)
  · refine .bind (.store_writing (brings_writeAllocated ht)) fun _ s₁ _ =>
      .store_reading fun next hnext => ?_
    have hsize := Tag.decode_size_mod (s₁.memory.word (t.bp - 8))
    rw [Region.above_ok hnext]
    exact .store_writing (brings_setPrevAlloc (by omega))

namespace Sound

theorem place_brings {size : Nat} (h : Sound r first s (L ++ t :: v :: R) idx)
    (hfree : t.tag.alloc = false) (h8 : size % 8 = 0) (h32 : 32 ≤ size) (hle : size ≤ t.tag.size) :
    Brings K (fun _ q => K q ∨ q = t.bp) (Store.place r t.bp size) s := by
  have hfiled := h.filed
  rw [vacant_append, vacant_cons_free hfree] at hfiled
  obtain ⟨s₁, hrun, h₁, -⟩ := hfiled.remove
  refine .step hrun (hfiled.files.remove_brings hlow hfiled.aligned
    (hfiled.mem (e := t.entry) (by simp)) _ _ hrun) ?_
  exact split_brings hlow (h₁.tiled.hole (Nat.le_trans h32 hle))
    (h₁.tiled.tag (by simp)) h₁.files h₁.covers h.spaced_left
    (fun x hx => h.spaced x (by simp [hx])) h8 h32 hle

theorem shrink_brings {size : Nat} (h : Sound r first s (L ++ t :: v :: R) idx)
    (halloc : t.tag.alloc = true) (h8 : size % 8 = 0) (h32 : 32 ≤ size) (hle : size ≤ t.tag.size) :
    Brings K (fun _ q => K q ∨ q = t.bp) (Store.split r t.bp size) s := by
  have hfiled := h.filed
  rw [vacant_append, vacant_cons_alloc halloc] at hfiled
  exact split_brings hlow (hfiled.tiled.hole (Nat.le_trans h32 hle))
    (hfiled.tiled.tag (by simp)) hfiled.files hfiled.covers
    h.spaced_left (fun x hx => h.spaced x (by simp [hx])) h8 h32 hle

theorem growInPlace_brings {size : Nat} (h : Sound r first s (L ++ t :: u :: R) idx)
    (halloc : t.tag.alloc = true) (h8 : size % 8 = 0) (h32 : 32 ≤ size) :
    Brings K (fun _ q => K q ∨ q = t.bp) (Store.growInPlace r t.bp size) s := by
  have mt : t ∈ L ++ t :: u :: R := by simp
  have mu : u ∈ L ++ t :: u :: R := by simp
  have ht : t.bp % 8 = 0 := h.tiled.row.aligned h.tiled.aligned mt
  refine .look (h.tiled.tag mt) (.look (h.tiled.above mt) ?_)
  rw [← h.tiled.next.1]
  refine .look (h.tiled.tag mu) (.ite (fun _ => .pure _ fun _ hq => .inl hq) fun hua => ?_)
  refine .store_except fun total htotal => .ite (fun _ => .pure _ fun _ hq => .inl hq) fun hle => ?_
  rw [eq_of_checkedAdd htotal] at hle ⊢
  have hua : u.tag.alloc = false := Bool.not_eq_true _ ▸ hua
  have hrow := h.tiled.row
  rw [List.append_cons] at hrow
  obtain ⟨v, R, rfl, -⟩ := hrow.succ_free hua fun x hx => h.spaced x (by simp [hx])
  obtain ⟨s₁, m₁, hremove, hwrite, hole, htag, hfiles, hcovers, -⟩ := h.absorb halloc hua
  have hmem : u.entry ∈ idx (sizeClass u.entry.size) :=
    h.filed.mem (mem_vacant.mpr ⟨u, mu, hua, rfl⟩)
  refine .step hremove (Files.remove_brings hlow h.filed.aligned h.filed.files hmem _ _ hremove) ?_
  have hsplit : Brings (fun q => K q ∨ q = t.bp) (fun _ q => (K q ∨ q = t.bp) ∨ q = t.bp)
      (Store.split r t.bp size) ⟨m₁, s₁.buckets⟩ :=
    split_brings (t := t.joined u)
      (s := ⟨m₁, s₁.buckets⟩) hlow hole htag hfiles hcovers h.spaced_left
      (fun x hx => h.spaced x (by simp [hx])) h8 h32 (Nat.not_lt.mp hle)
  refine .put hwrite (brings_writeAllocated ht)
    (.bind (hsplit.mono fun _ q hq => hq.elim id .inr) fun _ _ _ => .pure _ fun _ hq => hq)

theorem free_brings (h : Sound r first s (L ++ t :: u :: R) idx) (halloc : t.tag.alloc = true) :
    Brings K (fun _ q => K q ∧ q ≠ t.bp) (Store.free r t.bp) s := by
  have mt : t ∈ L ++ t :: u :: R := by simp
  have ht : t.bp % 8 = 0 := h.tiled.row.aligned h.tiled.aligned mt
  have hu : u.bp % 8 = 0 := h.tiled.row.aligned h.tiled.aligned (by simp)
  obtain ⟨⟨-, -, h8, -⟩, -⟩ := h.tiled.row.spans_one
  obtain ⟨m₁, m₂, hwrite, habove, hset, hfiled, -⟩ := h.vacate halloc
  refine .look (h.tiled.tag mt) (.put hwrite (brings_writeFree ht h8)
    (.look habove (.put hset (brings_setPrevAlloc hu) (.discard ?_))))
  exact Filed.coalesce_brings (t := ⟨t.bp, ⟨t.tag.size, t.tag.prevAlloc, false⟩⟩) hlow hfiled
    rfl h.spaced_left
    fun x hx => h.spaced x (by simp [hx])

end Sound

end Blocks

end BoundaryTag
