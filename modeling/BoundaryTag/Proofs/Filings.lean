/-
  BoundaryTag.Proofs.Filings — the free lists alone, over blocks that lie anywhere in a region.

  A filing puts a block into its list or takes it out again. It is allowed when the block is one
  of a family of blocks that share no bytes, and when it is not filed, or filed, respectively.
  What the family's headers say stays true through all filings, as these change nothing but
  links; so a block is always taken out with the size that it was put in with.

  Proved: every sequence of allowed filings, from empty lists on, succeeds and leaves the lists
  that the same sequence makes of an `Index`; the next filing changes no byte but those of its
  block's links and of one link of each of its neighbours; and putting in a block and taking it
  out again restores the heads and all bytes but its own two links (`filings_refine`).
-/

import BoundaryTag.Proofs.Search

namespace BoundaryTag

inductive Filing where
  | insert (e : Entry)
  | remove (e : Entry)

namespace Filing

def block : Filing → Entry
  | .insert e | .remove e => e

def perform (r : Region) : Filing → StoreM Unit
  | .insert e => Store.insert r e.bp
  | .remove e => Store.remove r e.bp

/-- What the filing makes of the lists. -/
def after (idx : Index) : Filing → Index
  | .insert e => idx.insert e
  | .remove e => idx.erase e

/-- The lists with the block in them: those after it is put in, those before it is taken out. -/
def around (idx : Index) : Filing → Index
  | .insert e => idx.insert e
  | .remove _ => idx

def Allowed (fam : Entry → Prop) (idx : Index) : Filing → Prop
  | .insert e => fam e ∧ ∀ c, e ∉ idx c
  | .remove e => ∃ c, e ∈ idx c

/-- Each filing is allowed when its turn comes. -/
def AllAllowed (fam : Entry → Prop) : Index → List Filing → Prop
  | _, [] => True
  | idx, f :: fs => f.Allowed fam idx ∧ AllAllowed fam (f.after idx) fs

end Filing

/-- No byte changed but those of the block's two links, of the next link of the block before it
    in its list, and of the previous link of the block behind it. -/
def OnlyLinks (idx : Index) (e : Entry) (m m' : Memory) : Prop :=
  ∃ pre post, idx (sizeClass e.size) = pre ++ e :: post ∧ ∀ z, (z < e.bp ∨ e.bp + 16 ≤ z) →
    (∀ p ∈ pre.getLast?, z < p.bp ∨ p.bp + 8 ≤ z) →
    (∀ n ∈ post.head?, z < n.bp + 8 ∨ n.bp + 16 ≤ z) → m'.byte z = m.byte z

/-- The blocks of the family stand in the region and share no bytes. -/
structure Family (r : Region) (fam : Entry → Prop) (m : Memory) : Prop where
  stands : ∀ e, fam e → Stands r m e
  apart : ∀ e f, fam e → fam f → e = f ∨ e.Apart f

/-- The store has these lists, and all their blocks are of the family. -/
structure Keeps (r : Region) (fam : Entry → Prop) (s : Store) (idx : Index) : Prop where
  files : Files r s idx
  family : Family r fam s.memory
  mem : ∀ c, ∀ e ∈ idx c, fam e

variable {r : Region} {fam : Entry → Prop} {s : Store} {idx : Index} {e : Entry} {m m' : Memory}

/-! ## What a filing leaves alone -/

theorem firstOr_none_eq (es : List Entry) : firstOr es none = es.head?.map Entry.bp := by
  cases es <;> rfl

theorem lastOr_none_eq (es : List Entry) : lastOr none es = es.getLast?.map Entry.bp := by
  rcases List.eq_nil_or_concat es with rfl | ⟨fs, e, rfl⟩
  · rfl
  · simp [lastOr_append]

theorem Seam.onlyLinks {low : Nat} {pre post : List Entry} {x y : Option Nat}
    (h : Seam low m m' e.bp (lastOr none pre) (firstOr post none) x y)
    (hsplit : idx (sizeClass e.size) = pre ++ e :: post) :
    OnlyLinks idx e m m' := by
  refine ⟨pre, post, hsplit, fun z hz hprev hnext => h.frame z hz ?_ ?_⟩
  · intro p hp
    rw [lastOr_none_eq] at hp
    obtain ⟨g, hg, rfl⟩ := Option.map_eq_some_iff.mp hp
    exact hprev g hg
  · intro n hn
    rw [firstOr_none_eq] at hn
    obtain ⟨g, hg, rfl⟩ := Option.map_eq_some_iff.mp hn
    exact hnext g hg

theorem OnlyLinks.frame (h : OnlyLinks idx e m m') {z : Nat}
    (hz : ∀ f ∈ idx (sizeClass e.size), z < f.bp ∨ f.bp + 16 ≤ z) :
    m'.byte z = m.byte z := by
  obtain ⟨pre, post, hsplit, hbytes⟩ := h
  rw [hsplit] at hz
  refine hbytes z (hz e (by simp)) ?_ ?_
  · intro p hp
    have := hz p (List.mem_append_left _ (List.mem_of_getLast? hp))
    omega
  · intro n hn
    have := hz n (List.mem_append_right _ (List.mem_cons_of_mem _ (List.mem_of_head? hn)))
    omega

/-- Headers are apart from all links. -/
theorem Family.onlyLinks (h : Family r fam m) (hlinks : OnlyLinks idx e m m')
    (hmem : ∀ c, ∀ f ∈ idx c, fam f) : Family r fam m' := by
  refine ⟨fun f hf => ?_, h.apart⟩
  have hf' := h.stands f hf
  have hlow := hf'.low_le
  have hroom := hf'.room
  refine hf'.congr ?_
  rw [← hf'.header]
  refine congrArg (fun w => (Tag.decode w).size)
    (Memory.word_congr fun z h₁ h₂ => hlinks.frame fun g hg => ?_)
  have hgroom := (h.stands g (hmem _ g hg)).room
  rcases h.apart f g hf (hmem _ g hg) with rfl | hapart
  · omega
  · simp only [Entry.Apart] at hapart
    omega

/-! ## Filings, one after the other -/

namespace Keeps

theorem empty (h : Family r fam m) (hlt : r.high < wordLimit) : Keeps r fam ⟨m, .empty⟩ .empty :=
  ⟨⟨fun c => Buckets.head_empty c, fun _ => trivial, fun _ _ he => absurd he List.not_mem_nil,
    fun _ _ he => absurd he List.not_mem_nil,
    fun _ _ => List.Pairwise.nil, fun _ => List.nodup_nil, fun _ _ he =>
      absurd he List.not_mem_nil, hlt⟩,
    h, fun _ _ he => absurd he List.not_mem_nil⟩

theorem fresh (h : Keeps r fam s idx) (he : fam e) (hnew : ∀ c, e ∉ idx c) :
    ∀ c, ∀ f ∈ idx c, f.Apart e := by
  intro c f hf
  rcases h.family.apart f e (h.mem c f hf) he with rfl | hapart
  · exact absurd hf (hnew c)
  · exact hapart

theorem filing (h : Keeps r fam s idx) {f : Filing} (hf : f.Allowed fam idx) :
    ∃ s', f.perform r s = .ok () s' ∧ Keeps r fam s' (f.after idx) ∧
      OnlyLinks (f.around idx) f.block s.memory s'.memory := by
  cases f with
  | insert e =>
    obtain ⟨he, hnew⟩ := hf
    obtain ⟨s', pre, post, hrun, hfiles, hsplit, hseam⟩ :=
      h.files.insert_sewn (h.family.stands e he) (h.fresh he hnew)
    have hmem : ∀ c, ∀ g ∈ idx.insert e c, fam g := by
      intro c g hg
      rcases Index.mem_insert.mp hg with hg | ⟨rfl, -⟩
      · exact h.mem c g hg
      · exact he
    have hlinks := hseam.onlyLinks hsplit
    exact ⟨s', hrun, ⟨hfiles, h.family.onlyLinks hlinks hmem, hmem⟩, hlinks⟩
  | remove e =>
    obtain ⟨c, hc⟩ := hf
    obtain rfl := h.files.classed c e hc
    obtain ⟨s', pre, post, hrun, hfiles, hsplit, hseam⟩ := h.files.remove_sewn hc
    have hlinks := hseam.onlyLinks hsplit
    refine ⟨s', hrun, ⟨hfiles, h.family.onlyLinks hlinks h.mem, fun c g hg => h.mem c g ?_⟩, hlinks⟩
    simp only [Filing.after, Index.erase] at hg
    split at hg
    · exact List.mem_of_mem_erase hg
    · exact hg

theorem filings {fs : List Filing} (h : Keeps r fam s idx) (hfs : Filing.AllAllowed fam idx fs) :
    ∃ s', fs.forM (Filing.perform r) s = .ok () s' ∧
      Keeps r fam s' (fs.foldl Filing.after idx) := by
  induction fs generalizing s idx with
  | nil => exact ⟨s, rfl, h⟩
  | cons f fs ih =>
    obtain ⟨s₁, hrun, hkeeps, -⟩ := h.filing hfs.1
    obtain ⟨s', hruns, hkeeps'⟩ := ih hkeeps hfs.2
    have hcons : (f :: fs).forM (Filing.perform r) = f.perform r >>= fun _ =>
      fs.forM (Filing.perform r) := rfl
    refine ⟨s', ?_, hkeeps'⟩
    rw [hcons, StoreM.bind_apply, hrun]
    exact hruns

/-- In and out again. -/
theorem inOut (h : Keeps r fam s idx) (he : (Filing.insert e).Allowed fam idx) :
    ∃ s₁ s₂, Store.insert r e.bp s = .ok () s₁ ∧ Store.remove r e.bp s₁ = .ok () s₂ ∧
      (∀ c, s₂.buckets.head c = s.buckets.head c) ∧ ∀ z, (z < e.bp ∨ e.bp + 16 ≤ z) →
      s₂.memory.byte z = s.memory.byte z := by
  obtain ⟨s₁, hin, hkeeps₁, hlinks₁⟩ := h.filing he
  have hmem : e ∈ idx.insert e (sizeClass e.size) := Index.mem_insert.mpr (.inr ⟨rfl, rfl⟩)
  obtain ⟨s₂, hout, hkeeps₂, hlinks₂⟩ := hkeeps₁.filing (f := .remove e) ⟨_, hmem⟩
  have hback : (Filing.remove e).after (idx.insert e) = idx :=
    Index.erase_insert (hkeeps₁.files.nodup _)
  rw [show (Filing.insert e).after idx = idx.insert e from rfl, hback] at hkeeps₂
  refine ⟨s₁, s₂, hin, hout, fun c => by rw [hkeeps₂.files.heads, h.files.heads], fun z hz => ?_⟩
  by_cases hlink : ∃ f ∈ idx (sizeClass e.size), f.bp ≤ z ∧ z < f.bp + 16
  · -- a link of another block of the list, which is that of the same list again
    obtain ⟨f, hf, h₁, h₂⟩ := hlink
    obtain ⟨hnext, hprev⟩ := (h.files.threaded _).word_eq (hkeeps₂.files.threaded _) f hf
    rcases Nat.lt_or_ge z (f.bp + 8) with hz' | hz'
    · exact Memory.byte_eq_of_word hnext h₁ hz'
    · exact Memory.byte_eq_of_word hprev hz' (by omega)
  · have hout : ∀ f ∈ idx.insert e (sizeClass e.size), z < f.bp ∨ f.bp + 16 ≤ z := by
      intro f hf
      rcases Index.mem_insert.mp hf with hf | ⟨rfl, -⟩
      · refine Classical.byContradiction fun hno => hlink ⟨f, hf, ?_, ?_⟩
        · omega
        · omega
      · exact hz
    exact (hlinks₂.frame hout).trans (hlinks₁.frame hout)

end Keeps

/-- For every region and every family of blocks in it that share no bytes, every sequence of
    allowed filings from empty lists on has a result: the lists are those that the sequence
    makes of an index, and the links of each block name the blocks before and behind it. Of
    whatever may be filed next, and of what is put in and taken out again, only links change. -/
theorem filings_refine {r : Region} {fam : Entry → Prop} {m : Memory} {fs : List Filing}
    (hlt : r.high < wordLimit) (hfam : Family r fam m) (hfs : Filing.AllAllowed fam .empty fs) :
    ∃ s idx, fs.forM (Filing.perform r) ⟨m, .empty⟩ = .ok () s ∧
      idx = fs.foldl Filing.after .empty ∧
      (∀ c, s.buckets.members r c s.memory = .ok ((idx c).map Entry.bp)) ∧
      (∀ c pre e post, idx c = pre ++ e :: post →
        r.links e.bp s.memory = .ok ⟨post.head?.map Entry.bp, pre.getLast?.map Entry.bp⟩) ∧
      (∀ f : Filing, f.Allowed fam idx → ∃ s', f.perform r s = .ok () s' ∧
        OnlyLinks (f.around idx) f.block s.memory s'.memory) ∧
      ∀ e, (Filing.insert e).Allowed fam idx → ∃ s₁ s₂, Store.insert r e.bp s = .ok () s₁ ∧
        Store.remove r e.bp s₁ = .ok () s₂ ∧
        (∀ c, s₂.buckets.head c = s.buckets.head c) ∧ ∀ z, (z < e.bp ∨ e.bp + 16 ≤ z) →
        s₂.memory.byte z = s.memory.byte z := by
  obtain ⟨s, hrun, hkeeps⟩ := (Keeps.empty hfam hlt).filings hfs
  refine ⟨s, _, hrun, rfl, hkeeps.files.members, ?_, ?_, fun e he => hkeeps.inOut he⟩
  · intro c pre e post hsplit
    rw [← firstOr_none_eq, ← lastOr_none_eq]
    exact hkeeps.files.links hsplit
  · intro f hf
    obtain ⟨s', hrun, -, hlinks⟩ := hkeeps.filing hf
    exact ⟨s', hrun, hlinks⟩

/-- A region with four blocks back to back. Two of 64 bytes share an exact class, one of 512 and
    one of 320 bytes a doubling one. -/
def scratch : Region := ⟨4096, 8192⟩

def scratchBlocks : List Entry := [⟨4112, 64⟩, ⟨4176, 64⟩, ⟨4240, 512⟩, ⟨4752, 320⟩]

def scratchMemory : Memory := scratchBlocks.foldl
      (fun m e => m.setWord (e.bp - 8) (Tag.encode ⟨e.size, true, false⟩)) Memory.blank

theorem scratch_family : Family scratch (· ∈ scratchBlocks) scratchMemory := by
  have hstands : ∀ e ∈ scratchBlocks, 4096 + 8 ≤ e.bp ∧ 32 ≤ e.size ∧ e.bp + e.size ≤ 8192 + 8 ∧
    (Tag.decode (scratchMemory.word (e.bp - 8))).size = e.size := by decide +kernel
  have hapart : ∀ e ∈ scratchBlocks, ∀ f ∈ scratchBlocks, e = f ∨ e.bp + e.size ≤ f.bp ∨
      f.bp + f.size ≤ e.bp := by decide
  refine ⟨fun e he => ?_, fun e f he hf => hapart e he f hf⟩
  obtain ⟨hlow, hroom, hhigh, hheader⟩ := hstands e he
  exact ⟨hlow, hroom, hhigh, hheader⟩

/-- The second block of 64 bytes goes before the first, and the block of 320 bytes before that
    of 512. -/
theorem filings_refine_scratch :
    ∃ s, [Filing.insert ⟨4112, 64⟩, .insert ⟨4176, 64⟩, .insert ⟨4240, 512⟩, .insert ⟨4752, 320⟩,
      .remove ⟨4112, 64⟩].forM (Filing.perform scratch) ⟨scratchMemory, .empty⟩ = .ok () s ∧
    s.buckets.members scratch (sizeClass 64) s.memory = .ok [4176] ∧
    s.buckets.members scratch (sizeClass 512) s.memory = .ok [4752, 4240] := by
  have hallowed : Filing.AllAllowed (· ∈ scratchBlocks) .empty
      [Filing.insert ⟨4112, 64⟩, .insert ⟨4176, 64⟩, .insert ⟨4240, 512⟩,
      .insert ⟨4752, 320⟩, .remove ⟨4112, 64⟩] := by
    refine ⟨⟨by decide, ?_⟩, ⟨by decide, ?_⟩, ⟨by decide, ?_⟩, ⟨by decide, ?_⟩,
      ⟨sizeClass 64, ?_⟩, trivial⟩
    all_goals simp [Filing.after, Index.mem_insert, Index.empty]
  obtain ⟨s, idx, hrun, rfl, hmembers, -⟩ := filings_refine (by decide) scratch_family hallowed
  exact ⟨s, hrun, (hmembers _).trans (by decide +kernel), (hmembers _).trans (by decide +kernel)⟩

end BoundaryTag
