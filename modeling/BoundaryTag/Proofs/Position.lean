/-
  BoundaryTag.Proofs.Position — it does not matter where an arena lies.

  Two programs make the same calls of two heaps, over arenas that start at different addresses,
  hold the same bytes and answer extensions alike. Where the one names an address, the other
  names its twin, or both name null, or both one out of bounds.

  Proved:
  - `Arenas.paired`: as long as both programs get answers, these correspond and so do the
    heaps. The next call ends alike, and so does every question, unless one side comes to
    a sum that no word holds.
  - `Arenas.displaced`: for a program that names and writes only what it may there is no such
    exception. It has the same run there, if the heap there can be checked where it then ends.
  - `Arenas.position_free` has both. `Arenas.position_overflows`: the exception is real. A
    program that releases what only looks like a block can write its links, and a link is added
    to the start of the arena before it is looked at.
-/

import BoundaryTag.Proofs.Diagnostics
import BoundaryTag.Proofs.TwinHeaps

namespace BoundaryTag

namespace Bases

section Runs

variable {A B : Type} [Arena A] [Arena B] {z : Bases} {P : A → B → Prop} {a : A} {b : B}
  {m n : Memory} {config : Config} {h : Heap A} {g : Heap B} {c d : Call}
  {past past' : List (Call × Answer)}

/-! ## Calls -/

/-- The same call, of addresses that correspond while the heaps do. -/
inductive Calls (z : Bases) (h : Heap A) (g : Heap B) : Call → Call → Prop
  | allocate {size : Nat} : Calls z h g (.allocate size) (.allocate size)
  | zeroAllocate {count elemSize : Nat} :
      Calls z h g (.zeroAllocate count elemSize) (.zeroAllocate count elemSize)
  | tryZeroAllocate {count elemSize : Nat} :
      Calls z h g (.tryZeroAllocate count elemSize) (.tryZeroAllocate count elemSize)
  | reallocate {p q size : Nat} : z.Names h g p q →
      Calls z h g (.reallocate p size) (.reallocate q size)
  | tryReallocate {p q size : Nat} : z.Names h g p q →
      Calls z h g (.tryReallocate p size) (.tryReallocate q size)
  | release {p q : Nat} : z.Names h g p q → Calls z h g (.release p) (.release q)
  | tryRelease {p q : Nat} : z.Names h g p q → Calls z h g (.tryRelease p) (.tryRelease q)
  | store {p q : Nat} {bytes : List UInt8} :
      z.Twin p q → Calls z h g (.store p bytes) (.store q bytes)

/-- Two answers: twins or none, or the same refusal. -/
abbrev Answers (z : Bases) : Answer → Answer → Prop := z.Attempted z.Twins

theorem Arenas.perform (hP : z.Arenas P) (hh : z.Heaps P h g) (hc : z.Calls h g c d) :
    (z.heaps P).Ends z.Twins (c.perform h) (d.perform g) := by
  cases hc with
  | allocate => exact hP.allocate _ h g hh
  | zeroAllocate => exact hP.zeroAllocate _ _ h g hh
  | tryZeroAllocate => exact hP.tryZeroAllocate _ _ h g hh
  | reallocate hn => exact hP.reallocate hh hn _
  | tryReallocate hn => exact hP.tryReallocate hh hn _
  | release hn => exact (hP.release hh hn).bind fun _ _ _ _ _ _ _ hh => .ok .none hh
  | tryRelease hn => exact (hP.tryRelease hh hn).bind fun _ _ _ _ _ _ _ hh => .ok .none hh
  | store hpq =>
    exact (modifyMemory (fun m n hm => hm.store hpq _) h g hh).bind fun _ _ _ _ _ _ _ hh =>
      .ok .none hh

/-- Two new heaps and what corresponding calls have made of them, with the calls and
    answers so far on both sides. -/
inductive Paired (z : Bases) (a : A) (b : B) (m n : Memory) (config : Config) :
    List (Call × Answer) → List (Call × Answer) → Heap A → Heap B → Prop
  | start {h : Heap A} {g : Heap B} : Heap.start a m config = .ok () h →
      Heap.start b n config = .ok () g → Paired z a b m n config [] [] h g
  | step {past past' : List (Call × Answer)} {h h' : Heap A} {g g' : Heap B} {c d : Call}
      {x y : Answer} :
      Paired z a b m n config past past' h g → z.Calls h g c d →
      Heap.attempt c.perform h = .ok x h' →
      Heap.attempt d.perform g = .ok y g' →
      Paired z a b m n config (past ++ [(c, x)]) (past' ++ [(d, y)]) h' g'

theorem Arenas.paired (hP : z.Arenas P)
    (hfirst : z.Extended P (Arena.extend metadataOverhead a) (Arena.extend metadataOverhead b))
    (hm : z.Mirror m n) (hr : z.Paired a b m n config past past' h g) :
    z.Heaps P h g ∧ List.Forall₂ (fun c d => z.Answers c.2 d.2) past past' := by
  induction hr with
  | start hstart hstart' =>
    have hstarted := hP.start hfirst hm config
    rw [hstart, hstart'] at hstarted
    cases hstarted with
    | ok hh => exact ⟨hh, .nil⟩
  | step _ hc hrun hrun' ih =>
    obtain ⟨hh, hanswers⟩ := ih
    have hends := attempt_ends (hP.perform hh hc)
    rw [hrun, hrun'] at hends
    cases hends with
    | ok hxy hh' => exact ⟨hh', List.rel_append hanswers (.cons hxy .nil)⟩

/-- Calls that correspond whatever the heaps are by then. -/
theorem Paired.replay {cs ds : List Call} {xs ys : List Answer} {h' : Heap A} {g' : Heap B}
    (hp : z.Paired a b m n config past past' h g)
    (hc : ∀ (h : Heap A) (g : Heap B), List.Forall₂ (z.Calls h g) cs ds)
    (hrun : Call.run cs h = .ok xs h') (hrun' : Call.run ds g = .ok ys g') :
    z.Paired a b m n config (past ++ cs.zip xs) (past' ++ ds.zip ys) h' g' := by
  induction cs generalizing ds past past' h g xs ys with
  | nil =>
    cases hc h g
    cases hrun
    cases hrun'
    simpa using hp
  | cons c cs ih =>
    rcases ds with _ | ⟨d, ds⟩
    · cases hc h g
    obtain ⟨x, h₁, hcall, hrun⟩ := HeapM.bind_ok.mp hrun
    obtain ⟨xs', h₂, hrest, hlast⟩ := HeapM.bind_ok.mp hrun
    obtain ⟨y, g₁, hcall', hrun'⟩ := HeapM.bind_ok.mp hrun'
    obtain ⟨ys', g₂, hrest', hlast'⟩ := HeapM.bind_ok.mp hrun'
    cases hlast
    cases hlast'
    have := ih (.step hp (List.forall₂_cons.mp (hc h g)).1 hcall hcall')
        (fun h g => (List.forall₂_cons.mp (hc h g)).2) hrest hrest'
    rw [List.append_assoc, List.append_assoc] at this
    exact this

theorem Paired.of_trials {β γ : Type} (cs ds : List Call) (xs ys : List Answer) (look : Heap A → β)
    (look' : Heap B → γ) {u : β} {v : γ}
    (hc : ∀ (h : Heap A) (g : Heap B), List.Forall₂ (z.Calls h g) cs ds)
    (ht : (trial a m config cs).map (fun x => (x.1, look x.2)) = some (xs, u))
    (ht' : (trial b n config ds).map (fun x => (x.1, look' x.2)) = some (ys, v)) :
    ∃ h g, z.Paired a b m n config (cs.zip xs) (ds.zip ys) h g ∧ look h = u ∧ look' g = v := by
  obtain ⟨h, h', hstart, hrun, hlook⟩ := trial_some look ht
  obtain ⟨g, g', hstart', hrun', hlook'⟩ := trial_some look' ht'
  exact ⟨h', g', Paired.replay (.start hstart hstart') hc hrun hrun', hlook, hlook'⟩

/-- Whether they check or not, heaps have the same addresses to name. -/
theorem Calls.unchecked (hc : z.Calls h g c d) : z.Calls h.unchecked g.unchecked c d := by
  have hnames {p q : Nat} (hn : z.Names h g p q) : z.Names h.unchecked g.unchecked p q := by
    cases hn with
    | null => exact .null
    | twin hp hq hpq => exact .twin hp hq hpq
    | outside hp hq hout hout' => exact .outside hp hq hout hout'
  cases hc with
  | allocate => exact .allocate
  | zeroAllocate => exact .zeroAllocate
  | tryZeroAllocate => exact .tryZeroAllocate
  | reallocate hn => exact .reallocate (hnames hn)
  | tryReallocate hn => exact .tryReallocate (hnames hn)
  | release hn => exact .release (hnames hn)
  | tryRelease hn => exact .tryRelease (hnames hn)
  | store hpq => exact .store hpq

omit [Arena A] [Arena B] in
theorem Heaps.unchecked (hh : z.Heaps P h g) : z.Heaps P h.unchecked g.unchecked := by
  refine ⟨hh.arena, hh.store, hh.prologue, ?_⟩
  rw [Heap.unchecked, Heap.unchecked, hh.config]

end Runs

/-! ## The run there -/

section Transfer

variable {A B : Type} [Arena A] [Arena B] [LawfulArena A] [LawfulArena B] {z : Bases}
  {P : A → B → Prop} {a : A} {b : B} {m n : Memory} {config : Config} {w w' : World A}
  {v v' : World B} {c d : Call} {x y : Answer} {row : List Tile} {idx : Index} {row' : List Tile}
  {idx' : Index} {p q : Nat}

/-- The heaps correspond, and what the programs hold. -/
structure Worlds (z : Bases) (P : A → B → Prop) (w : World A) (v : World B) : Prop where
  heaps : z.Heaps P w.heap v.heap
  holds {p q : Nat} : z.Twin p q → (p ∈ w.holds ↔ q ∈ v.holds)

/-- What the program may name here, it may name there. -/
theorem Arenas.mayName (hP : z.Arenas P) (hw : w.Sound row idx) (hv : v.Sound row' idx')
    (hwv : z.Worlds P w v) (hp : w.MayName p) :
    ∃ q, z.Names w.heap v.heap p q ∧ v.MayName q := by
  have hlow := (hP.low hwv.heaps.arena).1
  have hroom : Arena.low w.heap.arena + 32 ≤ w.heap.firstBlock := hw.laid.tiled.low_le
  have hfirst := hwv.heaps.firstBlock
  by_cases h0 : p = 0
  · subst h0
    exact ⟨0, .null, .inl rfl⟩
  -- an address between the bounds has a twin there
  have htwin (hge : w.heap.firstBlock ≤ p) : ∃ q, z.Twin p q ∧ z.Names w.heap v.heap p q := by
    obtain ⟨q, hpq, hq⟩ := z.exists_twin (p := p) (by omega)
    exact ⟨q, hpq, .twin h0 (by omega) hpq⟩
  rcases hp with hp | hp | hp
  · exact absurd hp h0
  · obtain ⟨e, he, rfl⟩ := (hw.holds p).mp hp
    obtain ⟨q, hpq, hn⟩ := htwin (hw.laid.live_bounds he).1
    exact ⟨q, hn, .inr (.inl ((hwv.holds hpq).mp hp))⟩
  · have hjudged (q : Nat) (hn : z.Names w.heap v.heap p q) : v.MayName q := by
      rcases Heap.checkAddress_cases hv.laid q with hok | hrejects
      · obtain ⟨fault, hp⟩ := hp
        have hends := hP.checkAddress hwv.heaps hn
        rw [hp, hok] at hends
        cases hends
      · exact .inr (.inr hrejects)
    by_cases hout : w.heap.Outside p
    · have hle : v.heap.firstBlock ≤ Arena.high v.heap.arena := hv.laid.tiled.row.le
      have hpos : 0 < v.heap.firstBlock := Nat.succ_pos _
      have hn : z.Names w.heap v.heap p (Arena.high v.heap.arena) :=
        .outside h0 (by omega) hout (.inr (Nat.le_refl _))
      exact ⟨_, hn, hjudged _ hn⟩
    · obtain ⟨q, -, hn⟩ := htwin (Nat.not_lt.mp (fun hlt => hout (.inl hlt)))
      exact ⟨q, hn, hjudged q hn⟩

/-- What the program may do here, it may do there. -/
theorem Arenas.permits (hP : z.Arenas P) (hw : w.Sound row idx) (hv : v.Sound row' idx')
    (hwv : z.Worlds P w v) (hp : w.Permits c) :
    ∃ d, z.Calls w.heap v.heap c d ∧ v.Permits d := by
  cases c with
  | allocate size => exact ⟨_, .allocate, trivial⟩
  | zeroAllocate count elemSize => exact ⟨_, .zeroAllocate, trivial⟩
  | tryZeroAllocate count elemSize => exact ⟨_, .tryZeroAllocate, trivial⟩
  | reallocate p size =>
    obtain ⟨q, hn, hq⟩ := hP.mayName hw hv hwv hp
    exact ⟨_, .reallocate hn, hq⟩
  | tryReallocate p size =>
    obtain ⟨q, hn, hq⟩ := hP.mayName hw hv hwv hp
    exact ⟨_, .tryReallocate hn, hq⟩
  | release p =>
    obtain ⟨q, hn, hq⟩ := hP.mayName hw hv hwv hp
    exact ⟨_, .release hn, hq⟩
  | tryRelease p =>
    obtain ⟨q, hn, hq⟩ := hP.mayName hw hv hwv hp
    exact ⟨_, .tryRelease hn, hq⟩
  | store addr bytes =>
    obtain ⟨p, hp, k, husable, hle, hlen⟩ := hp
    obtain ⟨e, he, rfl⟩ := (hw.holds p).mp hp
    have hlow := (hP.low hwv.heaps.arena).1
    have hroom : Arena.low w.heap.arena + 32 ≤ w.heap.firstBlock := hw.laid.tiled.low_le
    have hfirst := (hw.laid.live_bounds he).1
    obtain ⟨q, hpq, hq⟩ := z.exists_twin (p := e.bp) (by omega)
    obtain ⟨addr', haddr, -⟩ := z.exists_twin (p := addr) (by omega)
    have hqin := (hwv.holds hpq).mp hp
    obtain ⟨e', he', rfl⟩ := (hv.holds q).mp hqin
    -- the block there has as many bytes
    have hsame := hP.usableSize hwv.heaps
        (.twin (Heap.live_ne_zero hw.laid he) (Heap.live_ne_zero hv.laid he') hpq)
    rw [husable, Heap.usableSize_live hv.laid he'] at hsame
    cases hsame with
    | ok h _ =>
      exact ⟨_, .store haddr, e'.bp, hqin, k, h ▸ Heap.usableSize_live hv.laid he',
        by omega, by omega⟩

/-! ## What is held there -/

theorem Worlds.erase (hwv : z.Worlds P w v) (hw : w.Sound row idx) (hv : v.Sound row' idx')
    {p' q' : Nat} (hn : z.Names w.heap v.heap p' q') (hpq : z.Twin p q) : p ∈ w.holds.erase p' ↔
    q ∈ v.holds.erase q' := by
  rw [Finset.mem_erase, Finset.mem_erase, hwv.holds hpq]
  refine and_congr_left fun hq => ?_
  obtain ⟨e, he, rfl⟩ := (hw.holds p).mp ((hwv.holds hpq).mpr hq)
  obtain ⟨e', he', rfl⟩ := (hv.holds q).mp hq
  cases hn with
  | null => exact iff_of_true (Heap.live_ne_zero hw.laid he) (Heap.live_ne_zero hv.laid he')
  | twin _ _ hpq' => omega
  | outside _ _ hp hq =>
    have h1 := hw.laid.live_bounds he
    have h2 := hv.laid.live_bounds he'
    simp only [Heap.bounds, Heap.Outside] at *
    omega

theorem mem_insert_twin {S T : Finset Nat} {p' q' : Nat} (h : p ∈ S ↔ q ∈ T) (hpq : z.Twin p q)
    (hpq' : z.Twin p' q') :
    p ∈ insert p' S ↔ q ∈ insert q' T := by
  rw [Finset.mem_insert, Finset.mem_insert]
  exact or_congr (by omega) h

/-- Corresponding calls with corresponding answers leave the programs with twins. -/
theorem Worlds.account (hwv : z.Worlds P w v) (hw : w.Sound row idx) (hv : v.Sound row' idx')
    (hc : z.Calls w.heap v.heap c d) (hxy : z.Answers x y) (hpq : z.Twin p q) :
    p ∈ c.demand.account x w.holds ↔ q ∈ d.demand.account y v.holds := by
  have hheld := hwv.holds hpq
  have hadd (bytes : Nat) (zero : Bool) : p ∈ (Demand.add bytes zero).account x w.holds ↔
      q ∈ (Demand.add bytes zero).account y v.holds := by
    rcases hxy with ⟨⟨hnew⟩ | _⟩ | _
    · exact mem_insert_twin hheld hpq hnew
    all_goals exact hheld
  have hdrop {p' q' : Nat} (hn : z.Names w.heap v.heap p' q') :
      p ∈ (Demand.drop p').account x w.holds ↔ q ∈ (Demand.drop q').account y v.holds := by
    cases hxy with
    | ok => exact hwv.erase hw hv hn hpq
    | error => exact hheld
  have hresize {p' q' size : Nat} (hn : z.Names w.heap v.heap p' q') :
      p ∈ (Call.reallocate p' size).demand.account x w.holds ↔
      q ∈ (Call.reallocate q' size).demand.account y v.holds := by
    unfold Call.demand
    by_cases h0 : size = 0
    · simp only [if_pos h0]
      exact hdrop hn
    by_cases hnull : p' = 0
    · simp only [if_neg h0, if_pos hnull, if_pos (hn.null_iff.mp hnull)]
      exact hadd _ _
    simp only [if_neg h0, if_neg hnull, if_neg (mt hn.null_iff.mpr hnull)]
    rcases hxy with ⟨⟨hnew⟩ | _⟩ | _
    · exact mem_insert_twin (hwv.erase hw hv hn hpq) hpq hnew
    all_goals exact hheld
  cases hc with
  | allocate | zeroAllocate | tryZeroAllocate => exact hadd _ _
  | reallocate hn | tryReallocate hn => exact hresize hn
  | release hn | tryRelease hn => exact hdrop hn
  | store =>
    rcases hxy with ⟨_ | _⟩ | _
    all_goals exact hheld

/-- What a call makes of the heap there ends where what it makes of the heap here does, even if
    it is stopped by a check. -/
theorem Arenas.performed (hP : z.Arenas P) (hw : w.Sound row idx) (hv : v.Sound row' idx')
    (hwv : z.Worlds P w v) (hc : z.Calls w.heap v.heap c d) (hp : w.Permits c) (hp' : v.Permits d)
    {h : Heap A} (hrun : Heap.attempt c.perform w.heap = .ok x h) :
    ∃ y g, Heap.Answers (Heap.attempt d.perform) v.heap y g ∧ g.config = v.heap.config ∧
      z.Twin h.bounds.high g.bounds.high := by
  obtain ⟨x', h', k, hhere, hrun₀, hh⟩ := hw.perform_unchecked hp
  obtain ⟨rfl, rfl, -⟩ := hhere.inv hrun
  obtain ⟨y, g, k', hthere, hrun₀', hg⟩ := hv.perform_unchecked hp'
  have hends := attempt_ends (hP.perform hwv.heaps.unchecked hc.unchecked)
  rw [hrun₀, hrun₀'] at hends
  cases hends with
  | ok _ hk =>
    have hhigh := hP.high hk.arena
    rw [hh.arena, hg.arena] at hhigh
    exact ⟨y, g, hthere, hg.here, hhigh⟩

/-- A program that names and writes only what it may has the same run over the other arena,
    unless the heap there cannot be checked where it then ends. -/
theorem Arenas.displaced (hP : z.Arenas P)
    (hfirst : z.Extended P (Arena.extend metadataOverhead a) (Arena.extend metadataOverhead b))
    (hm : z.Mirror m n) (hs : LawfulArena.Sane a) (hs' : LawfulArena.Sane b)
    {past : List (Call × Answer)} (hr : Run a m config past w)
    (hroom : config.checkEachOp = true →
      w.heap.bounds.high + z.there + wordSize < wordLimit + z.here) {g : Heap B}
    (hstart : Heap.start b n config = .ok () g) :
    ∃ past' v, Run b n config past' v ∧ z.Paired a b m n config past past' w.heap v.heap ∧
      z.Worlds P w v := by
  induction hr with
  | @start h hrun =>
    have hp : z.Paired a b m n config [] [] h g := .start hrun hstart
    exact ⟨[], ⟨g, ∅⟩, .start hstart, hp, (hP.paired hfirst hm hp).1, by simp⟩
  | @step past w w' c x hr hstep ih =>
    obtain ⟨row, idx, hw⟩ := hr.sound hs
    obtain ⟨_, _, -, ht⟩ := hw.step hstep
    obtain ⟨past', v, hr', hp, hwv⟩ := ih fun hcheck => by
      have := hroom hcheck
      have := ht.later.high_le
      omega
    obtain ⟨row', idx', hv⟩ := hr'.sound hs'
    obtain ⟨hpermits, hrun⟩ := hstep
    obtain ⟨d, hc, hpermits'⟩ := hP.permits hw hv hwv hpermits
    obtain ⟨y, g', hthere, hconfig, hhigh⟩ := hP.performed hw hv hwv hc hpermits hpermits' hrun
    have hrun' := hthere.run fun hcheck => by
      rw [hconfig, hr'.config hs'] at hcheck
      have hend := hroom hcheck
      simp only [Twin, wordSize] at hhigh hend ⊢
      omega
    have hends := attempt_ends (hP.perform hwv.heaps hc)
    rw [hrun, hrun'] at hends
    cases hends with
    | ok hxy hh =>
      exact ⟨_, _, .step hr' (.mk hpermits' hrun'), .step hp hc hrun hrun', hh,
        fun hpq => hwv.account hw hv hc hxy hpq⟩

/-- Both heaps have the same blocks to count, and pass the audit. -/
theorem Arenas.counted (hP : z.Arenas P) (hw : w.Sound row idx) (hv : v.Sound row' idx')
    (hwv : z.Worlds P w v) :
    ∃ s, Heap.stats w.heap = .ok s w.heap ∧ Heap.stats v.heap = .ok s v.heap ∧
      (Arena.high w.heap.arena + 8 < wordLimit → Heap.validate w.heap = .ok (.ok s) w.heap) ∧
      (Arena.high v.heap.arena + 8 < wordLimit → Heap.validate v.heap = .ok (.ok s) v.heap) := by
  have hends := hP.stats _ _ hwv.heaps
  rw [Heap.stats_laid hw.laid, Heap.stats_laid hv.laid] at hends
  cases hends with
  | ok hsame _ =>
    refine ⟨_, Heap.stats_laid hw.laid, ?_, Heap.validate_laid hw.laid, ?_⟩
    · exact hsame ▸ Heap.stats_laid hv.laid
    · exact hsame ▸ Heap.validate_laid hv.laid

end Transfer

/-! ## Wherever an arena lies -/

section Position

variable {A B : Type} [Arena A] [Arena B] {z : Bases} {P : A → B → Prop} {a : A} {b : B}

/-- Over arenas that answer alike and have the same bytes, two heaps are made alike, and
    programs that make corresponding calls get corresponding answers and leave the same bytes;
    the next call, and every question, ends alike, unless one side comes to a sum that no word
    holds. To a program that names and writes only what it may this does not happen: its run
    over the one arena has its counterpart over the other, with the same count of blocks, which
    both audits confirm. Only a heap that is checked after each call must not come to end with
    the last word but one. -/
theorem Arenas.position_free (hP : z.Arenas P)
    (hfirst : z.Extended P (Arena.extend metadataOverhead a) (Arena.extend metadataOverhead b))
    {m n : Memory} (hm : z.Mirror m n) (config : Config) :
    z.Started P (Heap.start a m config) (Heap.start b n config) ∧
    (∀ past past' h g, z.Paired a b m n config past past' h g →
      z.Heaps P h g ∧ List.Forall₂ (fun c d => z.Answers c.2 d.2) past past' ∧
      (∀ c d, z.Calls h g c d →
        (z.heaps P).Ends z.Answers (Heap.attempt c.perform h) (Heap.attempt d.perform g)) ∧
      (∀ p q, z.Names h g p q → (z.heaps P).Ends Eq (Heap.usableSize p h) (Heap.usableSize q g)) ∧
      (z.heaps P).Ends Eq (Heap.stats h) (Heap.stats g) ∧
      (z.heaps P).Ends (z.Judged Eq) (Heap.validate h) (Heap.validate g) ∧
      ∀ verbose, (z.heaps P).Ends (z.Judged Eq) (Heap.checkHeap verbose h)
        (Heap.checkHeap verbose g)) ∧
    ∀ [LawfulArena A] [LawfulArena B], LawfulArena.Sane a → LawfulArena.Sane b →
      ∀ past w g, Run a m config past w → Heap.start b n config = .ok () g →
        (config.checkEachOp = true → w.heap.bounds.high + z.there + wordSize < wordLimit + z.here) →
        ∃ past' v s, Run b n config past' v ∧ z.Paired a b m n config past past' w.heap v.heap ∧
          Heap.stats w.heap = .ok s w.heap ∧ Heap.stats v.heap = .ok s v.heap ∧
          (Arena.high w.heap.arena + 8 < wordLimit → Heap.validate w.heap = .ok (.ok s) w.heap) ∧
          (Arena.high v.heap.arena + 8 < wordLimit →
            Heap.validate v.heap = .ok (.ok s) v.heap) := by
  refine ⟨hP.start hfirst hm config, fun past past' h g hp => ?_,
    fun hs hs' past w g hr hstart hroom => ?_⟩
  · obtain ⟨hh, hanswers⟩ := hP.paired hfirst hm hp
    exact ⟨hh, hanswers, fun c d hc => attempt_ends (hP.perform hh hc),
      fun p q hn => hP.usableSize hh hn, hP.stats h g hh,
      hP.validate h g hh, fun verbose => hP.checkHeap verbose h g hh⟩
  · obtain ⟨past', v, hr', hp, hwv⟩ := hP.displaced hfirst hm hs hs' hr hroom hstart
    obtain ⟨row, idx, hw⟩ := hr.sound hs
    obtain ⟨row', idx', hv⟩ := hr'.sound hs'
    obtain ⟨s, hcounts⟩ := hP.counted hw hv hwv
    exact ⟨past', v, s, hr', hp, hcounts⟩

/-! ## Reserved ranges -/

/-- Two reserved ranges at the two bases, of the same size and as much used. -/
structure Reserved (z : Bases) (a b : FixedArena) : Prop where
  here : a.base = z.here
  there : b.base = z.there
  used : a.used = b.used
  capacity : a.capacity = b.capacity
  within : a.capacity ≤ z.extent

theorem Reserved.extended {a b : FixedArena} (h : z.Reserved a b) (bytes : Nat) :
    z.Extended z.Reserved (Arena.extend bytes a) (Arena.extend bytes b) := by
  obtain ⟨h1, h2, h3, h4, h5⟩ := h
  have hremaining : a.remaining = b.remaining := by rw [FixedArena.remaining,
      FixedArena.remaining, h3, h4]
  simp only [Arena.extend, FixedArena.extend]
  by_cases hfits : bytes ≤ a.remaining
  · rw [dif_pos hfits, dif_pos (hremaining ▸ hfits)]
    exact .ok (by omega) ⟨h1, h2, congrArg (· + bytes) h3, h4, h5⟩
  · rw [dif_neg hfits, dif_neg (hremaining ▸ hfits), hremaining]
    exact .error .exhausted ⟨h1, h2, h3, h4, h5⟩

/-- Reserved ranges answer alike wherever they lie. -/
theorem reserved_arenas (z : Bases) : z.Arenas z.Reserved where
  low h := ⟨h.here, h.there⟩
  high h := by
    have := h.here
    have := h.there
    have := h.used
    simp only [Arena.high]
    omega
  within {a _} h := by
    have := h.here
    have := h.within
    have := a.used_le
    simp only [Arena.high]
    omega
  extend bytes h := h.extended bytes

end Position

/-! ## Two pages -/

/-- A page far from the first one. -/
def distantPage : FixedArena := ⟨70368744177664, 4096, 0, by decide, by decide, page.used_le⟩

/-- Where the two pages start. -/
def pages : Bases := ⟨4096, 70368744177664, 4096, page.base_aligned, distantPage.base_aligned⟩

theorem reserved_pages : pages.Reserved page distantPage := ⟨rfl, rfl, rfl, rfl, Nat.le_refl _⟩

/-- The run of a page has its counterpart in the distant page, with the same distances for
    answers. -/
theorem Arenas.position_free_pages : ∃ w v past' s,
    Run page .blank {} [(.allocate 56, .ok (some 4128)), (.release 4128, .ok none),
      (.allocate 100, .ok (some 4128))] w ∧
    Run distantPage .blank {} past' v ∧
    past'.map Prod.snd = [.ok (some 70368744177696), .ok none, .ok (some 70368744177696)] ∧
    pages.Heaps pages.Reserved w.heap v.heap ∧
    Heap.validate w.heap = .ok (.ok s) w.heap ∧ Heap.validate v.heap = .ok (.ok s) v.heap := by
  obtain ⟨w, hr, -, -⟩ := Run.of_trial page .blank {} [.allocate 56, .release 4128, .allocate 100]
    [.ok (some 4128), .ok none,
      .ok (some 4128)] (fun _ => ()) () (by decide +kernel) (by decide +kernel)
  have ht : (trial distantPage .blank {} []).map (fun x => (x.1, Heap.firstBlock x.2)) =
      some ([], 70368744177696) := by decide +kernel
  obtain ⟨g, -, hstart, -⟩ := trial_some Heap.firstBlock ht
  obtain ⟨-, halike, htransfer⟩ :=
    Arenas.position_free (reserved_arenas pages) (reserved_pages.extended _)
    (show pages.Mirror .blank .blank from fun x _ => by simp) {}
  obtain ⟨past', v, s, hr', hp, -, -, haudit, haudit'⟩ :=
    htransfer trivial trivial _ w g hr hstart (fun h => nomatch h)
  obtain ⟨hh, hanswers, -⟩ := halike _ _ _ _ hp
  have hwithin := (reserved_arenas pages).within hh.arena
  have hhigh := (reserved_arenas pages).high hh.arena
  simp only [pages, Twin] at hwithin hhigh
  refine ⟨w, v, past', s, hr, hr', ?_, hh, haudit (by simp only [wordLimit]; omega),
    haudit' (by simp only [wordLimit]; omega)⟩
  have hat {y : Answer} (h : pages.Answers (.ok (some 4128)) y) :
      y = .ok (some 70368744177696) := by
    cases h with
    | ok h =>
      cases h with
      | @some _ q h =>
        have hq : q = 70368744177696 := by
          simp only [Twin, pages] at h
          omega
        rw [hq]
  have hnone {y : Answer} (h : pages.Answers (.ok none) y) : y = .ok none := by
    rcases h with ⟨_ | _⟩
    rfl
  rcases hanswers with _ | ⟨h₁, _ | ⟨h₂, _ | ⟨h₃, _ | _⟩⟩⟩
  simp only [List.map_cons, List.map_nil, hat h₁, hnone h₂, hat h₃]

/-- Of an allocated block the program makes something that looks like a block, releases that,
    and writes a link there. -/
def farLink (base : Nat) : List Call :=
  [.allocate 100, .store (base + 32) (35 :: List.replicate 31 0 ++ [35] ++ List.replicate 7 0),
    .release (base + 40),
    .store (base + 48) [0, 0, 240, 255, 255, 255, 255, 255]]

/-- The answers to these calls. -/
def farLinked (base : Nat) : List Answer := [.ok (some (base + 32)), .ok none, .ok none, .ok none]

/-- The link leads out of the one page, and past the end of the address space from the other:
    the audit of the one heap has a verdict, and that of the other has none. -/
theorem Arenas.position_overflows : ∃ h g,
    pages.Paired page distantPage .blank .blank {} ((farLink 4096).zip (farLinked 4096))
      ((farLink 70368744177664).zip (farLinked 70368744177664)) h g ∧
    pages.Heaps pages.Reserved h g ∧
    Heap.validate h = .ok (.error (.linkAsymmetry 0 4136)) h ∧
    Heap.validate g = .error (.fault .overflow) g := by
  have hc (h g : Heap FixedArena) :
      List.Forall₂ (pages.Calls h g) (farLink 4096) (farLink 70368744177664) := by
    have htwin (d : Nat) : pages.Twin (4096 + d) (70368744177664 + d) := by
      simp only [Twin, pages]
      omega
    refine .cons .allocate
      (.cons (.store (htwin 32)) (.cons (.release ?_) (.cons (.store (htwin 48)) .nil)))
    exact .twin (by decide) (by decide) (htwin 40)
  have ht : (trial page .blank {} (farLink 4096)).map
      (fun x => (x.1, Heap.answer? Heap.validate x.2)) =
      some (farLinked 4096, some (.error (.linkAsymmetry 0 4136))) := by decide +kernel
  have ht' : (trial distantPage .blank {} (farLink 70368744177664)).map
      (fun x => (x.1, Heap.stop? Heap.validate x.2)) =
      some (farLinked 70368744177664, some (.fault .overflow)) := by decide +kernel
  obtain ⟨h, g, hp, hv, hv'⟩ :=
    Paired.of_trials _ _ _ _ (Heap.answer? Heap.validate) (Heap.stop? Heap.validate) hc ht ht'
  obtain ⟨h', hv⟩ := Heap.answer_some hv
  obtain ⟨g', hv'⟩ := Heap.stop_some hv'
  obtain rfl := Heap.looks_validate.ok hv
  obtain rfl := Heap.looks_validate.error hv'
  obtain ⟨hh, -⟩ := (reserved_arenas pages).paired (reserved_pages.extended _)
      (show pages.Mirror .blank .blank from fun x _ => by simp) hp
  exact ⟨_, _, hp, hh, hv, hv'⟩

end Bases

end BoundaryTag
