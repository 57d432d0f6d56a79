/-
  BoundaryTag.Proofs.Pool — what a program sees of its heap: addresses, and bytes behind them.

  A `Pool` is a finite map from the addresses that a program holds to the bytes of their
  payloads. It has no headers, no free blocks and no order of blocks; new addresses come from
  anywhere. A demand adds an entry, drops one, puts one in the place of another, overwrites
  part of one, or does nothing.

  Proved: every run on a heap is a run on its pool. The pool after each step is the one that the
  step of the pool leads to, payloads are at least a word apart, and below the heap no byte
  changes (`Run.simulates`).
-/

import BoundaryTag.Proofs.Runs
import Mathlib.Data.Finmap

namespace BoundaryTag

abbrev Pool := Finmap fun _ : Nat => List UInt8

namespace Pool

/-- What a demand may do to a pool, with each answer. -/
inductive Step (pool : Pool) : Demand → Answer → Pool → Prop
  /-- Nothing, which is no way to release an address that is held or to write. -/
  | still {d : Demand} {answer : Answer} : answer.Blank → (∀ p ∈ pool, d ≠ .drop p) →
      (∀ a bs, d ≠ .write a bs) → Step pool d answer pool
  | added {n p : Nat} {zero : Bool} {bytes : List UInt8} : p % 8 = 0 → p ∉ pool → n ≤ bytes.length →
      (zero = true → bytes.take n = List.replicate n 0) →
      Step pool (.add n zero) (.ok (some p)) (pool.insert p bytes)
  | dropped {p : Nat} : p ∈ pool → Step pool (.drop p) (.ok none) (pool.erase p)
  | resized {p q n : Nat} {old new : List UInt8} : pool.lookup p = some old → q % 8 = 0 →
      q ∉ pool.erase p → n ≤ new.length →
      new.take (min old.length n) = old.take (min old.length n) →
      Step pool (.resize p n) (.ok (some q)) ((pool.erase p).insert q new)
  | written {p a : Nat} {old bs : List UInt8} : pool.lookup p = some old → p ≤ a →
      a + bs.length ≤ p + old.length →
      Step pool (.write a bs) (.ok none)
        (pool.insert p (old.take (a - p) ++ (bs ++ old.drop (a - p + bs.length))))

/-- Calls and answers that an empty pool allows. -/
inductive Run : List (Call × Answer) → Pool → Prop
  | start : Run [] ∅
  | step {past : List (Call × Answer)} {pool pool' : Pool} {call : Call} {answer : Answer} :
      Run past pool →
      pool.Step call.demand answer pool' → Run (past ++ [(call, answer)]) pool'

/-- Payloads share no byte, and a word lies between any two. -/
def Separated (pool : Pool) : Prop := ∀ p q bytes bytes', pool.lookup p = some bytes →
    pool.lookup q = some bytes' → p ≠ q →
  p + bytes.length + 8 ≤ q ∨ q + bytes'.length + 8 ≤ p

variable {pool pool' : Pool} {p q : Nat} {bytes b : List UInt8}

theorem ext (h : ∀ p b, pool.lookup p = some b ↔ pool'.lookup p = some b) : pool = pool' :=
  Finmap.ext_lookup fun p => Option.ext (h p)

theorem lookup_insert_some : (pool.insert q bytes).lookup p = some b ↔ p = q ∧ bytes = b ∨
    p ≠ q ∧ pool.lookup p = some b := by
  by_cases hp : p = q
  · subst hp
    rw [Finmap.lookup_insert, Option.some_inj]
    simp
  · rw [Finmap.lookup_insert_of_ne _ hp]
    simp [hp]

theorem lookup_erase_some : (pool.erase q).lookup p = some b ↔ p ≠ q ∧ pool.lookup p = some b := by
  by_cases hp : p = q
  · subst hp
    simp [Finmap.lookup_erase]
  · rw [Finmap.lookup_erase_ne hp]
    simp [hp]

/-! ## The pool of a row -/

/-- The block's payload. -/
def content (m : Memory) (e : Entry) : List UInt8 := m.read e.bp (e.size - 8)

/-- The live blocks of a row, with their payloads. -/
def ofRow (row : List Tile) (m : Memory) : Pool :=
  ((live row).map fun e => (⟨e.bp, content m e⟩ : (_ : Nat) × List UInt8)).toFinmap

variable {r : Region} {first : Nat} {row row' : List Tile} {m m' : Memory} {e : Entry}

theorem length_content (m : Memory) (e : Entry) : (content m e).length = e.size - 8 :=
  Memory.length_read _ _ _

theorem getElem_content {i : Nat} (h : i < (content m e).length) :
    (content m e)[i] = m.byte (e.bp + i) := by
  simp [content, Memory.read]

theorem content_congr (h : ∀ i, i + 8 < e.size → m'.byte (e.bp + i) = m.byte (e.bp + i)) :
    content m' e = content m e := by
  refine List.ext_getElem (by rw [length_content, length_content]) fun i h1 h2 => ?_
  rw [getElem_content, getElem_content]
  rw [length_content] at h1
  exact h i (by omega)

/-- What is kept for a block is its payload. -/
theorem content_kept {es : List Entry} (h : Kept first es m m') (he : e ∈ es) :
    content m' e = content m e :=
  content_congr fun i hi => h _ (.inr ⟨e, he, Nat.le_add_right _ _, by omega⟩)

theorem lookup_ofRow (h : Tiled r m first row) : (ofRow row m').lookup p = some b ↔
    ∃ e ∈ live row, e.bp = p ∧ content m' e = b := by
  have hn : (live row).Nodup := h.nodup_held.filter _
  have hkeys :
      ((live row).map fun e => (⟨e.bp, content m' e⟩ : (_ : Nat) × List UInt8)).NodupKeys := by
    rw [List.NodupKeys, List.keys, List.map_map]
    exact hn.map_on fun e he f hf hbp => h.live_inj he hf hbp
  rw [ofRow, Finmap.dlookup_list_toFinmap, ← Option.mem_def,
    List.mem_dlookup_iff hkeys, List.mem_map]
  refine exists_congr fun e => and_congr_right ?_
  intro _
  rw [Sigma.mk.injEq, heq_eq_eq]

theorem mem_ofRow (h : Tiled r m first row) : p ∈ ofRow row m' ↔ ∃ e ∈ live row, e.bp = p := by
  rw [Finmap.mem_iff]
  simp only [lookup_ofRow h]
  constructor
  · rintro ⟨b, e, he, hp, -⟩
    exact ⟨e, he, hp⟩
  · rintro ⟨e, he, hp⟩
    exact ⟨_, e, he, hp, rfl⟩

/-- Each live block keeps a word to itself, its header. -/
theorem separated_ofRow (h : Tiled r m first row) : (ofRow row m').Separated := by
  intro p q bytes bytes' hp hq hne
  obtain ⟨e, he, rfl, rfl⟩ := (lookup_ofRow h).mp hp
  obtain ⟨f, hf, rfl, rfl⟩ := (lookup_ofRow h).mp hq
  obtain ⟨t, -, -, rfl, h32⟩ := h.mem_live.mp he
  obtain ⟨u, -, -, rfl, h32'⟩ := h.mem_live.mp hf
  rw [length_content, length_content]
  simp only [Tile.entry] at *
  rcases h.live_apart he hf with heq | h1 | h1
  · exact absurd (congrArg Entry.bp heq) hne
  · simp only at h1; omega
  · simp only at h1; omega

theorem live_aligned (h : Tiled r m first row) (he : e ∈ live row) : e.bp % 8 = 0 := by
  obtain ⟨t, ht, -, rfl, -⟩ := h.mem_live.mp he
  exact h.row.aligned h.aligned ht

theorem content_store {a : Nat} {bs : List UInt8} (h1 : e.bp ≤ a)
    (h2 : a + bs.length + 8 ≤ e.bp + e.size) :
    content (m.store a bs) e = (content m e).take (a - e.bp) ++
      (bs ++ (content m e).drop (a - e.bp + bs.length)) := by
  have hlen := length_content m e
  refine List.ext_getElem ?_ fun i h3 h4 => ?_
  · simp only [length_content, List.length_append, List.length_take, List.length_drop]
    omega
  rw [length_content] at h3
  rw [getElem_content, Memory.byte_store]
  -- before the written bytes, among them, behind them
  rcases Nat.lt_or_ge i (a - e.bp) with hi | hi
  · rw [if_neg (by omega), List.getElem_append_left (by rw [List.length_take]; omega),
      List.getElem_take, getElem_content]
  rw [if_pos (by omega), List.getElem_append_right (by rw [List.length_take]; omega)]
  have htake : ((content m e).take (a - e.bp)).length = a - e.bp := by rw [List.length_take]; omega
  simp only [htake]
  rcases Nat.lt_or_ge (i - (a - e.bp)) bs.length with hj | hj
  · rw [List.getElem_append_left hj, List.getElem?_eq_getElem (by omega), Option.getD_some]
    congr 1
    omega
  · rw [List.getElem_append_right hj, List.getElem?_eq_none (by omega), Option.getD_none,
      List.getElem_drop, getElem_content]
    congr 1
    omega

end Pool

section Simulation

variable {A : Type} [Arena A] [LawfulArena A] {w w' : World A} {h h' : Heap A}
  {row row' : List Tile} {idx idx' : Index} {d : Demand} {answer : Answer} {e e' : Entry} {n : Nat}

open Pool

namespace Heap

theorem Allocated.pool (ha : Allocated h h' row row' n e) (hl : Laid h row idx)
    (hl' : Laid h' row' idx') :
    ofRow row' h'.store.memory = (ofRow row h.store.memory).insert e.bp
      (content h'.store.memory e) := by
  apply Pool.ext
  intro p b
  rw [lookup_insert_some, lookup_ofRow hl'.tiled, lookup_ofRow hl.tiled]
  constructor
  · rintro ⟨f, hf, rfl, rfl⟩
    rcases (ha.gained.mem f).mp hf with rfl | hf
    · exact .inl ⟨rfl, rfl⟩
    · exact .inr ⟨ha.gained.fresh f hf, f, hf, rfl, (content_kept ha.kept hf).symm⟩
  · rintro (⟨rfl, rfl⟩ | ⟨-, f, hf, rfl, rfl⟩)
    · exact ⟨e, (ha.gained.mem e).mpr (.inl rfl), rfl, rfl⟩
    · exact ⟨f, (ha.gained.mem f).mpr (.inr hf), rfl, content_kept ha.kept hf⟩

theorem Released.pool {p : Nat} (hr : Released h h' row row' p) (hl : Laid h row idx)
    (hl' : Laid h' row' idx') :
    ofRow row' h'.store.memory = (ofRow row h.store.memory).erase p := by
  have hmem : ∀ f, f ∈ live row' ↔ f ∈ live row ∧ f.bp ≠ p := fun f => by
    rw [live_without hr.held, List.mem_filter, bne_iff_ne]
  apply Pool.ext
  intro q b
  rw [lookup_erase_some, lookup_ofRow hl'.tiled, lookup_ofRow hl.tiled]
  constructor
  · rintro ⟨f, hf, rfl, rfl⟩
    exact ⟨((hmem f).mp hf).2, f, ((hmem f).mp hf).1, rfl, (content_kept hr.kept hf).symm⟩
  · rintro ⟨hne, f, hf, rfl, rfl⟩
    exact ⟨f, (hmem f).mpr ⟨hf, hne⟩, rfl, content_kept hr.kept ((hmem f).mpr ⟨hf, hne⟩)⟩

theorem Resized.pool (hr : Resized h h' row row' e e' n) (he : e ∈ live row) (hl : Laid h row idx)
    (hl' : Laid h' row' idx') :
    ofRow row' h'.store.memory = ((ofRow row h.store.memory).erase e.bp).insert e'.bp
      (content h'.store.memory e') := by
  have hother : ∀ {f}, f ∈ live row → f ≠ e → f.bp ≠ e.bp :=
    fun hf hne hbp => hne (hl.tiled.live_inj hf he hbp)
  apply Pool.ext
  intro p b
  rw [lookup_insert_some, lookup_erase_some, lookup_ofRow hl'.tiled, lookup_ofRow hl.tiled]
  constructor
  · rintro ⟨f, hf, rfl, rfl⟩
    rcases (hr.swapped.mem f).mp hf with rfl | ⟨hf, hne⟩
    · exact .inl ⟨rfl, rfl⟩
    · have hbp := hother hf hne
      exact .inr ⟨hr.swapped.fresh f hf hne, hbp, f, hf, rfl,
        (content_kept hr.kept (mem_others.mpr ⟨hf, hbp⟩)).symm⟩
  · rintro (⟨rfl, rfl⟩ | ⟨-, hne, f, hf, rfl, rfl⟩)
    · exact ⟨e', (hr.swapped.mem e').mpr (.inl rfl), rfl, rfl⟩
    · refine ⟨f, (hr.swapped.mem f).mpr (.inr ⟨hf, fun heq => hne (congrArg Entry.bp heq)⟩), rfl,
        ?_⟩
      exact content_kept hr.kept (mem_others.mpr ⟨hf, hne⟩)

theorem Laid.pool_store (hl : Laid h row idx) (he : e ∈ live row) {a : Nat} {bs : List UInt8}
    (h1 : e.bp ≤ a) (h2 : a + bs.length + 8 ≤ e.bp + e.size) :
    ofRow row (h.store.memory.store a bs) = (ofRow row h.store.memory).insert e.bp
      (content (h.store.memory.store a bs) e) := by
  have hother : ∀ {f}, f ∈ live row → f.bp ≠ e.bp →
      content (h.store.memory.store a bs) f = content h.store.memory f := by
    intro f hf hne
    refine content_congr fun i hi => Memory.byte_store_outside _ ?_
    intro hin
    rcases hl.tiled.live_apart hf he with heq | h3 | h3
    · exact hne (congrArg Entry.bp heq)
    · omega
    · omega
  apply Pool.ext
  intro p b
  rw [lookup_insert_some, lookup_ofRow hl.tiled, lookup_ofRow hl.tiled]
  constructor
  · rintro ⟨f, hf, rfl, rfl⟩
    by_cases hbp : f.bp = e.bp
    · exact .inl ⟨hbp, by rw [hl.tiled.live_inj hf he hbp]⟩
    · exact .inr ⟨hbp, f, hf, rfl, (hother hf hbp).symm⟩
  · rintro (⟨rfl, rfl⟩ | ⟨hne, f, hf, rfl, rfl⟩)
    · exact ⟨e, he, rfl, rfl⟩
    · exact ⟨f, hf, rfl, hother hf hne⟩

end Heap

/-- What a turn does to the blocks of a heap, it does to their pool. -/
theorem Turn.pool (ht : Turn h h' row row' d answer) (hl : h.Laid row idx)
    (hl' : h'.Laid row' idx') :
    (ofRow row h.store.memory).Step d answer (ofRow row' h'.store.memory) := by
  cases ht with
  | still hs hblank hd =>
    rw [hs.store]
    refine .still hblank ?_ hd.not_write
    intro p hp
    obtain ⟨e, he, rfl⟩ := (mem_ofRow hl.tiled).mp hp
    exact hd.not_drop e he
  | @added _ n zero e ha hzero =>
    have hroom := ha.room
    rw [ha.pool hl hl']
    refine .added (live_aligned hl'.tiled ((ha.gained.mem e).mpr (.inl rfl))) ?_
      (by rw [length_content]; omega) ?_
    · intro hin
      obtain ⟨f, hf, hbp⟩ := (mem_ofRow hl.tiled).mp hin
      exact ha.gained.fresh f hf hbp
    · intro hz
      refine List.ext_getElem
        (by rw [List.length_take, length_content, List.length_replicate]; omega) fun i h1 h2 => ?_
      rw [List.getElem_take, getElem_content, List.getElem_replicate]
      exact hzero hz i (by simpa using h2)
  | @dropped _ e he hr =>
    rw [hr.pool hl hl']
    exact .dropped ((mem_ofRow hl.tiled).mpr ⟨e, he, rfl⟩)
  | @resized _ n e e' he hr =>
    have hroom := hr.room
    rw [hr.pool he hl hl']
    refine .resized ((lookup_ofRow hl.tiled).mpr ⟨e, he, rfl, rfl⟩)
      (live_aligned hl'.tiled ((hr.swapped.mem e').mpr (.inl rfl)))
      ?_ (by rw [length_content]; omega) ?_
    · intro hin
      obtain ⟨b, hb⟩ := Finmap.mem_iff.mp hin
      obtain ⟨hne, hb⟩ := lookup_erase_some.mp hb
      obtain ⟨f, hf, hbp, -⟩ := (lookup_ofRow hl.tiled).mp hb
      exact hr.swapped.fresh f hf (fun heq => hne (heq ▸ hbp.symm)) hbp
    · rw [length_content]
      refine List.ext_getElem
        (by simp only [List.length_take, length_content]; omega) fun i h1 h2 => ?_
      rw [List.getElem_take, List.getElem_take, getElem_content, getElem_content]
      exact hr.copied i (by rw [List.length_take] at h1; omega)
  | @written e a bs he h1 h2 hw =>
    subst hw
    show Pool.Step _ _ _ (ofRow row (h.store.memory.store a bs))
    rw [hl.pool_store he h1 h2, content_store h1 h2]
    exact .written ((lookup_ofRow hl.tiled).mpr ⟨e, he, rfl, rfl⟩) h1
      (by rw [length_content]; omega)

/-! ## Runs -/

/-- The pool has what the program holds, with as many bytes as it may use and as they are in
    memory. -/
structure World.Represents (w : World A) (pool : Pool) : Prop where
  keys : ∀ p, p ∈ pool ↔ p ∈ w.holds
  usable : ∀ p bytes, pool.lookup p = some bytes →
  Heap.usableSize p w.heap = .ok (some bytes.length) w.heap
  bytes : ∀ p bytes, pool.lookup p = some bytes → w.heap.store.memory.read p bytes.length = bytes

omit [LawfulArena A] in
/-- A world has one pool. -/
theorem World.Represents.unique {pool pool' : Pool} (hp : w.Represents pool)
    (hp' : w.Represents pool') : pool = pool' := by
  have half : ∀ {pool pool' : Pool}, w.Represents pool → w.Represents pool' →
      ∀ p b, pool.lookup p = some b → pool'.lookup p = some b := by
    intro pool pool' h h' p b hb
    obtain ⟨b', hb'⟩ :=
      Finmap.mem_iff.mp ((h'.keys p).mpr ((h.keys p).mp (Finmap.mem_iff.mpr ⟨b, hb⟩)))
    have hlen := (h.usable p b hb).symm.trans (h'.usable p b' hb')
    injection hlen with hlen
    rw [hb', ← h.bytes p b hb, ← h'.bytes p b' hb', Option.some.inj hlen]
  exact Pool.ext fun p b => ⟨half hp hp' p b, half hp' hp p b⟩

theorem World.Sound.represents (hw : w.Sound row idx) :
    w.Represents (ofRow row w.heap.store.memory) := by
  refine ⟨fun p => (mem_ofRow hw.laid.tiled).trans (hw.holds p).symm, fun p b hb => ?_,
    fun p b hb => ?_⟩
  all_goals obtain ⟨e, he, rfl, rfl⟩ := (lookup_ofRow hw.laid.tiled).mp hb
  · rw [length_content]
    exact Heap.usableSize_live hw.laid he
  · rw [length_content]
    rfl

/-- A step of the heap is a step of its pool. -/
theorem World.Sound.pool_step {call : Call} (hw : w.Sound row idx) (hstep : w.Step call answer w') :
    ∃ row' idx', w'.Sound row' idx' ∧
      Pool.Step (ofRow row w.heap.store.memory) call.demand answer
        (ofRow row' w'.heap.store.memory) := by
  obtain ⟨row', idx', hw', ht⟩ := hw.step hstep
  exact ⟨row', idx', hw', ht.pool hw.laid hw'.laid⟩

/-- A run of the heap is a run of its pool. -/
theorem Run.pool {arena : A} {memory : Memory} {config : Config} {past : List (Call × Answer)}
    (hs : LawfulArena.Sane arena) (hr : Run arena memory config past w) :
    ∃ row idx, w.Sound row idx ∧ Pool.Run past (ofRow row w.heap.store.memory) := by
  induction hr with
  | start hrun =>
    obtain ⟨⟨row, idx, hl, hlive⟩, hc, -⟩ := Heap.start_laid hs hrun
    refine ⟨row, idx, ⟨hl, hc, fun p => by simp [hlive]⟩, ?_⟩
    rw [ofRow, hlive]
    exact .start
  | step _ hstep ih =>
    obtain ⟨row, idx, hw, hpool⟩ := ih
    obtain ⟨row', idx', hw', hp⟩ := hw.pool_step hstep
    exact ⟨row', idx', hw', .step hpool hp⟩

/-- Every run is a run of its pool, up to the pool that the heap then has. From there every step
    of the heap is a step of the pool, and every permitted call makes a step or, if calls are
    checked, overruns the address space. Payloads are at least a word apart, and what is below
    the heap stays as it was. -/
theorem Run.simulates {arena : A} {memory : Memory} {config : Config} {past : List (Call × Answer)}
    (hs : LawfulArena.Sane arena) (hr : Run arena memory config past w) :
    ∃ pool, Pool.Run past pool ∧ w.Represents pool ∧ pool.Separated ∧
      (∀ call answer w', w.Step call answer w' → ∃ pool', pool.Step call.demand answer pool' ∧
        w'.Represents pool') ∧
      (∀ call, w.Permits call → (∃ answer w', w.Step call answer w') ∨ w.Overruns call) ∧
      ∀ x, x < Arena.high arena → w.heap.store.memory.byte x = memory.byte x := by
  obtain ⟨row, idx, hw, hpool⟩ := hr.pool hs
  refine ⟨_, hpool, hw.represents, separated_ofRow hw.laid.tiled, ?_, ?_, (hr.founded hs).below⟩
  · intro call answer w' hstep
    obtain ⟨row', idx', hw', hp⟩ := hw.pool_step hstep
    exact ⟨_, hp, hw'.represents⟩
  · intro call hp
    exact hw.answers hp

theorem Run.simulates_page : ∃ w pool,
    Run page .blank {} [(.zeroAllocate 3 8, .ok (some 4128)),
      (.reallocate 4128 100, .ok (some 4128)), (.allocate 500, .ok (some 4240))] w ∧
      Pool.Run [(.zeroAllocate 3 8, .ok (some 4128)), (.reallocate 4128 100, .ok (some 4128)),
        (.allocate 500, .ok (some 4240))] pool ∧
      w.Represents pool ∧ pool.Separated ∧
      (∀ call answer w', w.Step call answer w' → ∃ pool', pool.Step call.demand answer pool' ∧
        w'.Represents pool') := by
  obtain ⟨w, hr, -, -⟩ :=
    Run.of_trial page .blank {} [.zeroAllocate 3 8, .reallocate 4128 100, .allocate 500]
    [.ok (some 4128), .ok (some 4128),
      .ok (some 4240)] (fun _ => ()) () (by decide +kernel) (by decide +kernel)
  obtain ⟨pool, hpool, hrep, hsep, hstep, -⟩ := Run.simulates (A := FixedArena) trivial hr
  exact ⟨w, pool, hr, hpool, hrep, hsep, hstep⟩

end Simulation

end BoundaryTag
