/-
  BoundaryTag.Proofs.Tenancy — a program and its global heap, call after call.

  The program asks for layouts with a power of two as alignment, hands back each address with
  the layout that it has for it, and writes into the bytes that its addresses are for. What it
  has follows from its calls and their answers alone (`GlobalCall.account`). The heap is made by
  the first call that can make it.

  Proved: after every call the heap is well-formed, and every address is aligned, has its bytes
  within one live block and to itself, and keeps what the program wrote there; null leaves the heap
  as it was, a deallocation frees the block that the address came from and no other; and when the
  program has no address, no block is allocated (`GlobalRun.tenanted`). What the first and the later
  attempts to make the heap come to, over which memory, and where its arena lies, is left open.
-/

import BoundaryTag.Proofs.Layouts
import BoundaryTag.Proofs.Ownership
import BoundaryTag.Proofs.WellFormed

namespace BoundaryTag

namespace GlobalCall

/-- The program may make this call when it has these addresses. -/
def Allowed (holds : Holdings) : GlobalCall → Prop
  | .allocate l | .zeroAllocate l => l.Proper
  | .reallocate addr l _ | .deallocate addr l => holds addr = some l
  | .store addr bytes => ∃ p l, holds p = some l ∧ p ≤ addr ∧ addr + bytes.length ≤ p + l.size

/-- The addresses that a program has after a call, from those it had and the answer. -/
def account : GlobalCall → Option Nat → Holdings → Holdings
  | .allocate l, some p, holds | .zeroAllocate l, some p, holds => Function.update holds p (some l)
  | .reallocate addr l n, some p, holds =>
    Function.update (Function.update holds addr none) p (some { l with size := n })
  | .deallocate addr _, _, holds => Function.update holds addr none
  | _, _, holds => holds

/-- The call asks for an address. -/
def Asks : GlobalCall → Prop
  | .allocate _ | .zeroAllocate _ | .reallocate .. => True
  | .deallocate .. | .store .. => False

end GlobalCall

/-- A global heap, and the addresses that the program has from it. -/
structure GlobalWorld (A : Type) where
  heap : GlobalHeap A
  holds : Holdings

section Runs

variable {A : Type} [Arena A]

/-- An allowed call that has an answer. -/
inductive GlobalWorld.Step : GlobalWorld A → GlobalCall → Option Nat → GlobalWorld A → Prop
  | mk {w : GlobalWorld A} {call : GlobalCall} {answer : Option Nat} {g' : GlobalHeap A} :
      call.Allowed w.holds →
      call.perform w.heap = .ok answer g' → Step w call answer ⟨g', call.account answer w.holds⟩

/-- What a program and its global heap come to, with the calls and answers so far. -/
inductive GlobalRun (makeArena : Nat → Except Fault (Except ArenaError (A × Memory)))
    (config : Config) :
    List (GlobalCall × Option Nat) → GlobalWorld A → Prop
  | start : GlobalRun makeArena config [] ⟨.untried makeArena config, fun _ => none⟩
  | step {past : List (GlobalCall × Option Nat)} {w w' : GlobalWorld A} {call : GlobalCall}
      {answer : Option Nat} :
      GlobalRun makeArena config past w → w.Step call answer w' →
      GlobalRun makeArena config (past ++ [(call, answer)]) w'

/-! ## Replaying calls -/

/-- The addresses that a program has after these calls and answers, from those it had. -/
def holdings (holds : Holdings) (past : List (GlobalCall × Option Nat)) : Holdings :=
  past.foldl (fun holds c => c.1.account c.2 holds) holds

/-- Each call may be made when it is made. -/
def allowed : Holdings → List (GlobalCall × Option Nat) → Prop
  | _, [] => True
  | holds, (call, answer) :: rest => call.Allowed holds ∧ allowed (call.account answer holds) rest

/-- Calls that may be made when they are made make a run. -/
theorem GlobalRun.replay {makeArena : Nat → Except Fault (Except ArenaError (A × Memory))}
    {config : Config} {past : List (GlobalCall × Option Nat)} {w : GlobalWorld A}
    {g' : GlobalHeap A} {calls : List GlobalCall} {answers : List (Option Nat)}
    (hr : GlobalRun makeArena config past w) (hrun : GlobalCall.run calls w.heap = .ok answers g')
    (hallowed : allowed w.holds (calls.zip answers)) :
    GlobalRun makeArena config (past ++ calls.zip answers)
      ⟨g', holdings w.holds (calls.zip answers)⟩ := by
  induction calls generalizing past w answers with
  | nil =>
    obtain ⟨rfl, rfl⟩ := EStateM.Result.ok.inj hrun
    simpa [holdings] using hr
  | cons call calls ih =>
    obtain ⟨answer, g₁, hcall, hrun⟩ := GlobalM.bind_ok hrun
    obtain ⟨answers', g₂, hrest, hlast⟩ := GlobalM.bind_ok hrun
    obtain ⟨rfl, rfl⟩ := EStateM.Result.ok.inj hlast
    obtain ⟨hone, hothers⟩ := hallowed
    have := ih (.step hr (.mk hone hcall)) hrest hothers
    rw [List.append_assoc] at this
    exact this

/-- The answers to these calls, and what a look at the heap then shows, if nothing goes wrong. -/
def globalTrial {β : Type} (makeArena : Nat → Except Fault (Except ArenaError (A × Memory)))
    (config : Config) (calls : List GlobalCall) (look : Heap A → β) :
    Option (List (Option Nat) × Option β) :=
  match GlobalCall.run calls (.untried makeArena config) with
  | .ok answers g => some (answers, g.heap.map look)
  | .error .. => none

theorem GlobalRun.of_trial {β : Type}
    (makeArena : Nat → Except Fault (Except ArenaError (A × Memory))) (config : Config)
    (calls : List GlobalCall) (answers : List (Option Nat)) (look : Heap A → β) (b : β)
    (ht : globalTrial makeArena config calls look = some (answers, some b))
    (hallowed : allowed (fun _ => none) (calls.zip answers)) :
    ∃ g h, GlobalRun makeArena config (calls.zip answers)
      ⟨g, holdings (fun _ => none) (calls.zip answers)⟩ ∧ g.heap = some h ∧ look h = b := by
  unfold globalTrial at ht
  rcases hrun : GlobalCall.run calls (.untried makeArena config) with ⟨answers', g⟩ | ⟨stop, g⟩
  · rw [hrun] at ht
    obtain ⟨rfl, hlook⟩ := Prod.mk.inj (Option.some.inj ht)
    obtain ⟨h, hheap, hlook⟩ := Option.map_eq_some_iff.mp hlook
    exact ⟨g, h, GlobalRun.replay .start hrun hallowed, hheap, hlook⟩
  · rw [hrun] at ht
    cases ht

end Runs

/-! ## What one call does -/

/-- The bytes that the addresses are for are as they were. -/
def Preserved (holds : Holdings) (m m' : Memory) : Prop :=
  ∀ p l, holds p = some l → ∀ i, i < l.size → m'.byte (p + i) = m.byte (p + i)

theorem Leased.preserved {m m' : Memory} {es : List Entry} {holds : Holdings}
    (h : Leased m es holds) (hm : ∀ e ∈ es, ∀ x, e.Payload x → m'.byte x = m.byte x) :
    Preserved holds m m' := by
  intro p l hp i hi
  obtain ⟨e, he, hseat⟩ := h.seat p l hp
  exact hm e he _ (hseat.payload_of_range (Nat.le_add_right _ _) (Nat.add_lt_add_left hi _))

section Turns

variable {A : Type} [Arena A] [LawfulArena A]

/-- The address `p` is new, and so is its block, and nothing else has changed. -/
structure Gives (h h' : Heap A) (es es' : List Entry) (holds : Holdings) (l : Layout)
    (p : Nat) : Prop where
  fresh : holds p = none
  block : ∃ e, e.bp = l.block h'.store.memory p ∧ (∀ f ∈ es, f.bp ≠ e.bp) ∧ ∀ f, f ∈ es' ↔
  f = e ∨ f ∈ es
  preserved : Preserved holds h.store.memory h'.store.memory

/-- What a call does to the heap `h`, to its allocated blocks `es` and to the bytes that the
    program has. -/
inductive Turnover (h h' : Heap A) (es es' : List Entry) (holds : Holdings) :
    GlobalCall → Option Nat → Prop
  | refused {call : GlobalCall} : call.Asks → h.Same h' → es' = es →
      Turnover h h' es es' holds call none
  | given {l : Layout} {p : Nat} : Gives h h' es es' holds l p →
      Turnover h h' es es' holds (.allocate l) (some p)
  | zeroed {l : Layout} {p : Nat} : Gives h h' es es' holds l p →
      (∀ i, i < l.size → h'.store.memory.byte (p + i) = 0) →
      Turnover h h' es es' holds (.zeroAllocate l) (some p)
  /-- The new address may be the old one, and its block in the place of the old one. -/
  | moved {l : Layout} {p n q : Nat} {e e' : Entry} : Function.update holds p none q = none →
      e ∈ es → e.bp = l.block h.store.memory p →
      e'.bp = l.block h'.store.memory q → (∀ f ∈ es, f ≠ e → f.bp ≠ e'.bp) →
      (∀ f, f ∈ es' ↔ f = e' ∨ f ∈ es ∧ f ≠ e) →
      (∀ i, i < min l.size n → h'.store.memory.byte (q + i) = h.store.memory.byte (p + i)) →
      Preserved (Function.update holds p none) h.store.memory h'.store.memory →
      Turnover h h' es es' holds (.reallocate p l n) (some q)
  | freed {l : Layout} {p : Nat} {e : Entry} : e ∈ es → e.bp = l.block h.store.memory p →
      (∀ f, f ∈ es' ↔ f ∈ es ∧ f ≠ e) →
      Preserved (Function.update holds p none) h.store.memory h'.store.memory →
      Turnover h h' es es' holds (.deallocate p l) none
  | written {addr : Nat} {bytes : List UInt8} :
      es' = es → h' = h.withMemory (h.store.memory.store addr bytes) →
      Turnover h h' es es' holds (.store addr bytes) none

variable {g : GlobalHeap A} {h h' : Heap A} {row row' : List Tile} {idx idx' : Index}
  {holds : Holdings} {call : GlobalCall} {l : Layout} {p n : Nat} {e : Entry}

/-- What comes of a call on a laid heap. -/
def Turns (g : GlobalHeap A) (h : Heap A) (row : List Tile) (holds : Holdings)
    (call : GlobalCall) : Prop :=
  ∃ answer h' row' idx', GlobalHeap.Ends call.perform g answer h' ∧ h.Later h' ∧ h'.Laid row' idx' ∧
    Leased h'.store.memory (live row') (call.account answer holds) ∧
    Turnover h h' (live row) (live row') holds call answer

/-- What is null changes nothing. -/
theorem turns_refused (hl : h.Laid row idx) (hleased : Leased h.store.memory (live row) holds)
    (hasks : call.Asks) (hends : GlobalHeap.Ends call.perform g none h') (hsame : h.Same h') :
    Turns g h row holds call := by
  refine ⟨none, h', row, idx, hends, hsame.later, hl.same hsame, ?_, .refused hasks hsame rfl⟩
  have haccount : call.account none holds = holds := by
    cases call with
    | deallocate => cases hasks
    | _ => rfl
  rw [haccount, hsame.store]
  exact hleased

theorem Heap.Allocated.gives (ha : h.Allocated h' row row' n e) (hl' : h'.Laid row' idx')
    (hleased : Leased h.store.memory (live row) holds) (hseat : Seat h'.store.memory l p e)
    (hpow : l.align.isPowerOfTwo) :
    Leased h'.store.memory (live row') (Function.update holds p (some l)) ∧
    Gives h h' (live row) (live row') holds l p := by
  have hkept : ∀ f ∈ live row, ∀ x, f.Payload x → h'.store.memory.byte x = h.store.memory.byte x :=
    fun f hf x hx => ha.kept x (.inr ⟨f, hf, hx⟩)
  have hapart : ∀ f ∈ live row, f.Apart e := fun f hf => ha.apart hl' hf
  have hleased' := hleased.kept hkept
  exact ⟨hleased'.rent hseat hpow hapart ha.gained.mem, hleased'.fresh hseat hapart,
    ⟨e, hseat.block.symm, ha.gained.fresh, ha.gained.mem⟩,
    hleased.preserved hkept⟩

/-- The blocks but that of an address that the program has. -/
theorem vacated (hl : h.Laid row idx) (hleased : Leased h.store.memory (live row) holds)
    (hp : holds p = some l) (he : e ∈ live row) (hseat : Seat h.store.memory l p e) :
    Leased h.store.memory (Heap.others row e.bp) (Function.update holds p none) ∧
    ∀ f, f ∈ Heap.others row e.bp ↔ f ∈ live row ∧ f ≠ e := by
  refine ⟨hleased.vacate hp fun f => by rw [hseat.block, Heap.mem_others], fun f => ?_⟩
  rw [Heap.mem_others]
  refine and_congr_right fun hf =>
    not_congr ⟨fun hbp => hl.tiled.live_inj hf he hbp, fun heq => congrArg Entry.bp heq⟩

theorem turns_reallocate (hl : h.Laid row idx) (hc : h.Checkable)
    (hleased : Leased h.store.memory (live row) holds) (hheap : g.heap = some h)
    (hp : holds p = some l) (n : Nat) : Turns g h row holds (.reallocate p l n) := by
  obtain ⟨e, he, hseat⟩ := hleased.seat p l hp
  have hpow := hleased.power p l hp
  rcases GlobalHeap.reallocate_spec hl hc hheap he hseat hpow n with
    ⟨h', hends, hsame⟩ | ⟨q, e', h', row', idx', hends, hl', hm⟩
  · exact turns_refused hl hleased trivial hends hsame
  obtain ⟨hothers, hmem⟩ := vacated hl hleased hp he hseat
  have hkept : ∀ f ∈ Heap.others row e.bp, ∀ x, f.Payload x →
      h'.store.memory.byte x = h.store.memory.byte x := fun f hf x hx =>
    hm.kept x (.inr ⟨f, hf, hx⟩)
  have hmem' : ∀ f, f ∈ live row' ↔ f = e' ∨ f ∈ Heap.others row e.bp :=
    fun f => by rw [hm.swapped.mem, hmem]
  have hapart : ∀ f ∈ Heap.others row e.bp, f.Apart e' := by
    intro f hf
    rcases hl'.tiled.live_apart ((hmem' f).mpr (.inr hf)) ((hmem' e').mpr (.inl rfl)) with
      rfl | hapart
    · obtain ⟨hin, hne⟩ := (hmem f).mp hf
      exact absurd rfl (hm.swapped.fresh f hin hne)
    · exact hapart
  have hothers' := hothers.kept hkept
  refine ⟨some q, h', row', idx', hends, hm.later, hl', hothers'.rent hm.seat hpow hapart hmem', ?_⟩
  exact .moved (hothers'.fresh hm.seat hapart) he hseat.block.symm hm.seat.block.symm
    hm.swapped.fresh hm.swapped.mem hm.copied
    (hothers.preserved hkept)

theorem turns_deallocate (hl : h.Laid row idx) (hc : h.Checkable)
    (hleased : Leased h.store.memory (live row) holds) (hheap : g.heap = some h)
    (hp : holds p = some l) : Turns g h row holds (.deallocate p l) := by
  obtain ⟨e, he, hseat⟩ := hleased.seat p l hp
  obtain ⟨h', row', idx', hl', hr, hdealloc⟩ := GlobalHeap.deallocate_spec hl he hseat
  obtain ⟨hothers, hmem⟩ := vacated hl hleased hp he hseat
  have hlive : live row' = Heap.others row e.bp := live_without hr.held
  have hkept : ∀ f ∈ Heap.others row e.bp, ∀ x, f.Payload x →
      h'.store.memory.byte x = h.store.memory.byte x := fun f hf x hx =>
    hr.kept x (.inr ⟨f, hlive ▸ hf, hx⟩)
  refine ⟨none, h', row', idx', (hdealloc g hheap hc).bind_pure _, hr.later, hl',
    hlive ▸ hothers.kept hkept, ?_⟩
  exact .freed he hseat.block.symm (hlive ▸ hmem) (hothers.preserved hkept)

theorem turns_store (hl : h.Laid row idx) (hc : h.Checkable)
    (hleased : Leased h.store.memory (live row) holds) (hheap : g.heap = some h) {addr : Nat}
    {bytes : List UInt8} (hp : holds p = some l) (hle : p ≤ addr)
    (hlen : addr + bytes.length ≤ p + l.size) :
    Turns g h row holds (.store addr bytes) := by
  obtain ⟨e, he, hseat⟩ := hleased.seat p l hp
  have hbyte : ∀ x, ¬ (p ≤ x ∧ x < p + l.size) →
      (h.store.memory.store addr bytes).byte x = h.store.memory.byte x := fun x hx =>
    Memory.byte_store_outside _ fun hin => hx ⟨by omega, by omega⟩
  have hl' := hl.withMemory
      (Heap.Laid.confined he fun x hx => hbyte x fun hin => hx (hseat.payload_of_range hin.1 hin.2))
  have hleased' : Leased (h.store.memory.store addr bytes) (live row) holds :=
    hleased.congr fun q k hq x hx =>
    hbyte x (hleased.unstashed (fun f hf f' hf' => hl.tiled.live_apart hf hf') hp hq hx)
  refine ⟨none, _, row, idx, ?_, Heap.later_withMemory h _, hl', hleased', .written rfl rfl⟩
  exact (GlobalHeap.Ends.modifyMemory hheap hc _).bind_pure fun _ => none

/-- Every allowed call has its turn, on the heap that it finds or makes. -/
theorem turns (hl : h.Laid row idx) (hc : h.Checkable)
    (hleased : Leased h.store.memory (live row) holds) (ho : g.Opens h)
    (hmade : ∀ p l, holds p = some l → g.heap = some h) (hp : call.Allowed holds) :
    Turns g h row holds call := by
  cases call with
  | allocate l =>
    rcases GlobalHeap.allocate_spec hl hc ho hp with
      ⟨h', hends, hsame⟩ | ⟨p, e, h', row', idx', hends, hl', ha, hseat⟩
    · exact turns_refused hl hleased trivial hends hsame
    · obtain ⟨hleased', hgives⟩ := ha.gives hl' hleased hseat hp.power
      exact ⟨some p, h', row', idx', hends, ha.later, hl', hleased', .given hgives⟩
  | zeroAllocate l =>
    rcases GlobalHeap.zeroAllocate_spec hl hc ho hp with
      ⟨h', hends, hsame⟩ | ⟨p, e, h', row', idx', hends, hl', ha, hseat, hzero⟩
    · exact turns_refused hl hleased trivial hends hsame
    · obtain ⟨hleased', hgives⟩ := ha.gives hl' hleased hseat hp.power
      exact ⟨some p, h', row', idx', hends, ha.later, hl', hleased', .zeroed hgives hzero⟩
  | reallocate addr l n => exact turns_reallocate hl hc hleased (hmade addr l hp) hp n
  | deallocate addr l => exact turns_deallocate hl hc hleased (hmade addr l hp) hp
  | store addr bytes =>
    obtain ⟨p, l, hin, hle, hlen⟩ := hp
    exact turns_store hl hc hleased (hmade p l hin) hin hle hlen

/-! ## Without a heap -/

omit [LawfulArena A] in
/-- Asking comes to nothing, when no heap can be made. -/
theorem shut_asks {r : EStateM.Result Stop (GlobalHeap A) Unit}
    (hr : ∀ (α : Type) (x : HeapM A α), GlobalHeap.withHeap x g = GlobalHeap.nothing r)
    (hp : l.Proper) : GlobalHeap.allocate l g = GlobalHeap.nothing r ∧
    GlobalHeap.zeroAllocate l g = GlobalHeap.nothing r := by
  have hbytes : ∀ size, GlobalHeap.allocateBytes size g = GlobalHeap.nothing r := by
    intro size
    rw [GlobalHeap.allocateBytes, GlobalM.bind_apply, hr]
    cases r <;> rfl
  by_cases hsmall : l.align ≤ wordSize
  · refine ⟨by rw [GlobalHeap.allocate, if_pos hsmall, hbytes], ?_⟩
    rw [GlobalHeap.zeroAllocate, if_pos hsmall, GlobalM.bind_apply, hr]
    cases r <;> rfl
  · have haligned : GlobalHeap.allocateAligned l g = GlobalHeap.nothing r := by
      simp only [GlobalHeap.allocateAligned, if_neg (Nat.not_le.mpr hp.padded),
        GlobalM.bind_apply, hbytes]
      cases r <;> rfl
    refine ⟨by rw [GlobalHeap.allocate, if_neg hsmall, haligned], ?_⟩
    rw [GlobalHeap.zeroAllocate, if_neg hsmall, GlobalM.bind_apply, haligned]
    cases r <;> rfl

omit [LawfulArena A] in
/-- A step that finds and makes no heap has nothing to answer. -/
theorem GlobalWorld.Step.shut {w w' : GlobalWorld A} {answer : Option Nat}
    (hs : w.Step call answer w') (hholds : w.holds = fun _ => none)
    (hshut : ∀ h, ¬ w.heap.Opens h) :
    answer = none ∧ w'.holds = w.holds ∧ w.heap.Still w'.heap := by
  obtain ⟨hp, hrun⟩ := hs
  obtain ⟨-, r, hr, hall⟩ := GlobalHeap.withHeap_shut hshut
  have hnot : ∀ p l, w.holds p ≠ some l := fun p l hin => by
    rw [hholds] at hin
    cases hin
  have hend : call.perform w.heap = GlobalHeap.nothing r ∧ call.account none w.holds = w.holds := by
    cases call with
    | allocate l => exact ⟨(shut_asks hall hp).1, rfl⟩
    | zeroAllocate l => exact ⟨(shut_asks hall hp).2, rfl⟩
    | reallocate addr l n => exact absurd hp (hnot addr l)
    | deallocate addr l => exact absurd hp (hnot addr l)
    | store addr bytes =>
      obtain ⟨p, l, hin, -⟩ := hp
      exact absurd hin (hnot p l)
  obtain ⟨hend, haccount⟩ := hend
  rw [hend] at hrun
  cases r with
  | error stop g₁ => cases hrun
  | ok u g₁ =>
    obtain ⟨rfl, rfl⟩ := EStateM.Result.ok.inj hrun
    exact ⟨rfl, haccount, hr g₁ rfl⟩

/-! ## Runs -/

/-- The heap is laid, has the settings of the global heap, and its live blocks are those of
    the program's addresses. -/
structure GlobalWorld.Houses (w : GlobalWorld A) (h : Heap A) (row : List Tile)
    (idx : Index) : Prop where
  laid : h.Laid row idx
  checkable : h.Checkable
  config : h.config = w.heap.config
  leased : Leased h.store.memory (live row) w.holds

/-- Arenas are made that a heap can be made over. The heap, once there is one, houses the
    program. -/
structure GlobalWorld.Sound (w : GlobalWorld A) : Prop where
  settles : ∀ n arena memory, w.heap.makeArena n = .ok (.ok (arena, memory)) →
    LawfulArena.Settles arena
  homeless : w.heap.heap = none → w.holds = fun _ => none
  housed : ∀ h, w.heap.heap = some h → ∃ row idx, w.Houses h row idx

/-- The call comes to the check of a heap that has taken all but the last word of the address
    space. The check rounds that heap's end up to a word, which overflows. -/
def GlobalWorld.Overruns (w : GlobalWorld A) (call : GlobalCall) : Prop :=
  ∃ g h, call.perform w.heap = .error (.fault .overflow) g ∧ g.heap = some h ∧
    wordLimit ≤ h.bounds.high + wordSize

namespace GlobalWorld.Sound

variable {w w' : GlobalWorld A} {answer : Option Nat}

/-- The heap that the next call finds is as it was left, and one that it makes is laid and has
    no block. -/
theorem houses (hw : w.Sound) (ho : w.heap.Opens h) : ∃ row idx, w.Houses h row idx := by
  rcases ho with hheap | ⟨hnone, arena, memory, hmade, hstart⟩
  · exact hw.housed h hheap
  · obtain ⟨⟨row, idx, hl, hlive⟩, hc, hconfig⟩ :=
      Heap.start_settled (hw.settles _ arena memory hmade) hstart
    refine ⟨row, idx, hl, hc, hconfig, ?_⟩
    rw [hw.homeless hnone, hlive]
    exact Leased.nobody _

/-- A program that has an address has it from a heap. -/
theorem made (hw : w.Sound) (ho : w.heap.Opens h) (hp : w.holds p = some l) :
    w.heap.heap = some h := by
  rcases ho with hheap | ⟨hnone, -⟩
  · exact hheap
  · rw [hw.homeless hnone] at hp
    cases hp

/-- An allowed call has its turn on the heap that it finds or makes. -/
theorem turns (hw : w.Sound) (ho : w.heap.Opens h) (hh : w.Houses h row idx)
    (hp : call.Allowed w.holds) :
    Turns w.heap h row w.holds call :=
  BoundaryTag.turns hh.laid hh.checkable hh.leased ho (fun _ _ hp => hw.made ho hp) hp

/-- A step on the heap that it finds or makes. -/
theorem step_opened (hw : w.Sound) (ho : w.heap.Opens h) (hh : w.Houses h row idx)
    (hs : w.Step call answer w') :
    ∃ h' row' idx', w.heap.Keeps w'.heap h' ∧ w'.Houses h' row' idx' ∧
      Turnover h h' (live row) (live row') w.holds call answer := by
  obtain ⟨hp, hrun⟩ := hs
  obtain ⟨answer', h', row', idx', hends, hlater, hl', hleased', ht⟩ := hw.turns ho hh hp
  obtain ⟨rfl, hkeeps, hc'⟩ := hends.inv hrun
  exact ⟨h', row', idx', hkeeps,
    ⟨hl', hc', (hlater.config.trans hh.config).trans hkeeps.config.symm, hleased'⟩, ht⟩

theorem step (hw : w.Sound) (hs : w.Step call answer w') :
    w'.Sound ∧ w'.heap.config = w.heap.config := by
  by_cases ho : ∃ h, w.heap.Opens h
  · obtain ⟨h, ho⟩ := ho
    obtain ⟨row, idx, hh⟩ := hw.houses ho
    obtain ⟨h', row', idx', hkeeps, hh', -⟩ := hw.step_opened ho hh hs
    refine ⟨⟨hkeeps.makeArena ▸ hw.settles, fun hnone => ?_, fun k hheap => ?_⟩, hkeeps.config⟩
    · rw [hkeeps.heap] at hnone
      cases hnone
    · rw [hkeeps.heap] at hheap
      obtain rfl := Option.some.inj hheap
      exact ⟨row', idx', hh'⟩
  · have hshut : ∀ h, ¬ w.heap.Opens h := fun h hh => ho ⟨h, hh⟩
    have hnone := (GlobalHeap.withHeap_shut hshut).1
    obtain ⟨-, hholds, hstill⟩ := hs.shut (hw.homeless hnone) hshut
    refine ⟨⟨hstill.makeArena ▸ hw.settles, fun _ => hholds.trans (hw.homeless hnone),
      fun h hheap => ?_⟩, hstill.config⟩
    rw [hstill.heap] at hheap
    cases hheap

/-- An allowed call has an answer, unless it overruns. -/
theorem answers (hw : w.Sound) (ho : w.heap.Opens h) (hp : call.Allowed w.holds) :
    (∃ answer w', w.Step call answer w') ∨ w.heap.config.checkEachOp = true ∧ w.Overruns call := by
  obtain ⟨row, idx, hh⟩ := hw.houses ho
  obtain ⟨answer, h', row', idx', hends, hlater, -⟩ := hw.turns ho hh hp
  by_cases hc : h'.Checkable
  · obtain ⟨g', hrun, -⟩ := hends.run hc
    exact .inl ⟨answer, _, .mk hp hrun⟩
  · obtain ⟨hchecks, -⟩ := Heap.not_checkable_iff.mp hc
    obtain ⟨g', k, hrun, hheap, hk⟩ := hends.halt hc
    rw [hlater.config, hh.config] at hchecks
    exact .inr ⟨hchecks, g', k, hrun, hheap, (Heap.not_checkable_iff.mp hk).2⟩

end GlobalWorld.Sound

variable {makeArena : Nat → Except Fault (Except ArenaError (A × Memory))} {config : Config}
  {past : List (GlobalCall × Option Nat)} {w : GlobalWorld A}

theorem GlobalRun.sound
    (hs : ∀ n arena memory, makeArena n = .ok (.ok (arena, memory)) → LawfulArena.Settles arena)
    (hr : GlobalRun makeArena config past w) : w.Sound ∧ w.heap.config = config := by
  induction hr with
  | start => exact ⟨⟨hs, fun _ => rfl, fun h hheap => nomatch hheap⟩, rfl⟩
  | step _ hstep ih =>
    obtain ⟨hw, hconfig⟩ := ih
    obtain ⟨hw', hconfig'⟩ := hw.step hstep
    exact ⟨hw', hconfig'.trans hconfig⟩

/-- Attempts to make an arena may end in any way, and give any arenas that a heap can be made
    over, with any memory. After any run the heap that the next call finds or makes is
    well-formed, and the program can rely on the addresses that it has. Any call that it may make
    next has its turn, and is answered unless a check runs into the end of the address space. When
    the program has no address, no block is allocated, and the heap is valid unless it ends there.
    While no heap can be made, the program has no address, and it is answered with null. -/
theorem GlobalRun.tenanted
    (hs : ∀ n arena memory, makeArena n = .ok (.ok (arena, memory)) → LawfulArena.Settles arena)
    (hr : GlobalRun makeArena config past w) :
    (∀ h, w.heap.Opens h → ∃ ts q idx, h.WellFormed ts q idx ∧
      Tenanted h.store.memory (live ts) w.holds ∧
      (∀ call answer w', w.Step call answer w' → ∃ h' ts' q' idx', w'.heap.heap = some h' ∧
        h'.WellFormed ts' q' idx' ∧ Turnover h h' (live ts) (live ts') w.holds call answer) ∧
      (∀ call, call.Allowed w.holds → (∃ answer w', w.Step call answer w') ∨
        config.checkEachOp = true ∧ w.Overruns call) ∧
      ((w.holds = fun _ => none) → (∀ t ∈ ts, t.tag.alloc = false) ∧
        (h.bounds.high + wordSize < wordLimit → ∃ stats, Heap.validate h = .ok (.ok stats) h))) ∧
    ((∀ h, ¬ w.heap.Opens h) → (w.holds = fun _ => none) ∧
      ∀ call answer w', w.Step call answer w' → answer = none ∧ (w'.holds = fun _ => none) ∧
        w'.heap.heap = none) := by
  obtain ⟨hw, hconfig⟩ := hr.sound hs
  refine ⟨fun h ho => ?_, fun hshut => ?_⟩
  · obtain ⟨row, idx, hh⟩ := hw.houses ho
    obtain ⟨ts, q, hrow, hwell⟩ := hh.laid.readOff
    have hlive : live ts = live row := by rw [hrow, live_epilogue]
    refine ⟨ts, q, idx, hwell, ?_, ?_, fun call hp => hconfig ▸ hw.answers ho hp, ?_⟩
    · rw [hlive]
      exact hh.leased.relied fun e he f hf => hh.laid.tiled.live_apart he hf
    · intro call answer w' hstep
      obtain ⟨h', row', idx', hkeeps, hh', ht⟩ := hw.step_opened ho hh hstep
      obtain ⟨ts', q', hrow', hwell'⟩ := hh'.laid.readOff
      refine ⟨h', ts', q', idx', hkeeps.heap, hwell', ?_⟩
      rw [hlive, show live ts' = live row' by rw [hrow', live_epilogue]]
      exact ht
    · intro hnone
      refine ⟨fun t ht => ?_, fun hhigh => ⟨_, Heap.validate_laid hh.laid hhigh⟩⟩
      cases ha : t.tag.alloc with
      | false => rfl
      | true =>
        obtain ⟨e, he, -⟩ := hwell.tiles.live_iff.mpr ⟨t, ht, ha, rfl⟩
        rw [live_epilogue, hlive] at he
        obtain ⟨p, l, hp, -⟩ := hh.leased.tenant e he
        rw [hnone] at hp
        cases hp
  · have hholds := hw.homeless (GlobalHeap.withHeap_shut hshut).1
    refine ⟨hholds, fun call answer w' hstep => ?_⟩
    obtain ⟨hanswer, hholds', hstill⟩ := hstep.shut hholds hshut
    exact ⟨hanswer, hholds'.trans hholds, hstill.heap⟩

end Turns

/-- The first attempt to make an arena fails. Then there is a break to claim, in the middle of a
    word, and memory that is not blank. -/
def secondTry : Nat → Except Fault (Except ArenaError (BreakArena ProcessBreak × Memory))
  | 0 => .ok (.error (.exhausted 0 0))
  | _ + 1 => .ok (.ok (.unclaimed ⟨4096, 16384, 4099⟩, Memory.blank.fill 4096 255 512))

theorem secondTry_settles {n : Nat} {arena : BreakArena ProcessBreak} {memory : Memory}
    (hmade : secondTry n = .ok (.ok (arena, memory))) : LawfulArena.Settles arena := by
  cases n with
  | zero => cases hmade
  | succ n =>
    cases hmade
    exact BreakArena.settles (by simp only [BreakArena.unclaimed, LawfulBreak.Sane]; decide)

/-- At the second attempt there is a heap. An address in the middle of its block moves as the
    heap grows, and a plain one is handed back. -/
theorem GlobalRun.tenanted_break :
    ∃ (w w' : GlobalWorld (BreakArena ProcessBreak)) (h h' : Heap (BreakArena ProcessBreak))
    (ts ts' : List Tile),
    GlobalRun secondTry {} [(.allocate ⟨40, 8⟩, none), (.zeroAllocate ⟨24, 64⟩, some 4160),
      (.allocate ⟨40, 8⟩, some 4232),
      (.store 4160 [1, 2, 3], none), (.reallocate 4160 ⟨24, 64⟩ 100, some 4288)] w ∧
    w.holds 4288 = some ⟨100, 64⟩ ∧ w.holds 4232 = some ⟨40, 8⟩ ∧ w.heap.heap = some h ∧
    Tenanted h.store.memory (live ts) w.holds ∧ w.Step (.deallocate 4232 ⟨40, 8⟩) none w' ∧
    w'.heap.heap = some h' ∧
    Turnover h h' (live ts) (live ts') w.holds (.deallocate 4232 ⟨40, 8⟩) none := by
  obtain ⟨g, h, hr, hheap, hlook⟩ := GlobalRun.of_trial secondTry {}
    [.allocate ⟨40, 8⟩, .zeroAllocate ⟨24, 64⟩, .allocate ⟨40, 8⟩, .store 4160 [1, 2, 3],
      .reallocate 4160 ⟨24, 64⟩ 100]
    [none, some 4160, some 4232, none, some 4288] (fun h => h.bounds.high) 4648 (by decide +kernel)
    ⟨⟨rfl, 3, rfl⟩, ⟨rfl, 6, rfl⟩, ⟨rfl, 3, rfl⟩,
      ⟨4160, ⟨24, 64⟩, rfl, by decide, by decide⟩, rfl, trivial⟩
  obtain ⟨hopen, -⟩ := GlobalRun.tenanted (fun _ _ _ hmade => secondTry_settles hmade) hr
  obtain ⟨ts, q, idx, -, htenanted, hsteps, hanswers, -⟩ := hopen h (.inl hheap)
  obtain ⟨answer, w', hstep⟩ := (hanswers (.deallocate 4232 ⟨40, 8⟩) rfl).resolve_right fun hover =>
    nomatch hover.1
  obtain ⟨h', ts', q', idx', hheap', -, ht⟩ := hsteps _ answer w' hstep
  obtain rfl : answer = none := by cases ht <;> rfl
  exact ⟨_, w', h, h', ts, ts', hr, rfl, rfl, hheap, htenanted, hstep, hheap', ht⟩

/-- The arena of the heap has taken all but the last word of the address space. Its only block
    is handed back, and the audit overflows at its end. -/
theorem GlobalRun.vacant_overflows : ∃ (w : GlobalWorld FixedArena) (h h' : Heap FixedArena),
    GlobalRun (fun _ => .ok (.ok (brink, .blank))) {}
      [(.allocate ⟨300, 8⟩, some 18446744073709551032),
        (.deallocate 18446744073709551032 ⟨300, 8⟩, none)] w ∧
    w.heap.heap = some h ∧ w.holds = (fun _ => none) ∧
    Heap.validate h = .error (.fault .overflow) h' := by
  obtain ⟨g, h, hr, hheap, hlook⟩ := GlobalRun.of_trial (fun _ => .ok (.ok (brink, .blank))) {}
    [.allocate ⟨300, 8⟩,
      .deallocate 18446744073709551032 ⟨300, 8⟩] [some 18446744073709551032, none]
    (Heap.stop? Heap.validate) (some (.fault .overflow)) (by decide +kernel)
      ⟨⟨rfl, 3, rfl⟩, rfl, trivial⟩
  obtain ⟨h', hstop⟩ := Heap.stop_some hlook
  refine ⟨_, h, h', hr, hheap, ?_, hstop⟩
  funext p
  simp only [holdings, List.zip_cons_cons, List.zip_nil_left, List.foldl_cons, List.foldl_nil,
    GlobalCall.account, Function.update_idem, Function.update_apply]
  split <;> rfl

end BoundaryTag
