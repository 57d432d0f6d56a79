/-
  BoundaryTag.Proofs.Runs — a program and its heap, call after call.

  A program may name null, an address that it holds, or any address that the heap turns down,
  and it may write into payloads of blocks that it holds. What it holds follows from its calls
  and their answers alone (`Demand.account`). Sizes and counts are free.

  Proved: a permitted call does one of five things to the rows of blocks (`perform_turn`), and has
  an answer unless a check runs into the end of the address space (`answers`); after every call of
  a run the heap is laid and its live blocks are those that the program holds (`Run.sound`).
-/

import BoundaryTag.Heap.Call
import BoundaryTag.Proofs.Reallocation
import Mathlib.Data.Finset.Insert

namespace BoundaryTag

abbrev Answer := Except HeapError (Option Nat)

/-- What a call asks for, whichever operation it uses to ask. -/
inductive Demand where
  /-- Room for bytes, all zero if they shall be. -/
  | add (bytes : Nat) (zero : Bool)
  | drop (addr : Nat)
  | resize (addr bytes : Nat)
  | write (addr : Nat) (bytes : List UInt8)
  deriving DecidableEq, Repr

/-- Reallocation of null allocates, and reallocation to no bytes releases. -/
def Call.demand : Call → Demand
  | .allocate size => .add size false
  | .zeroAllocate count elemSize | .tryZeroAllocate count elemSize => .add (count * elemSize) true
  | .reallocate addr size | .tryReallocate addr size =>
    if size = 0 then .drop addr else if addr = 0 then .add size false else .resize addr size
  | .release addr | .tryRelease addr => .drop addr
  | .store addr bytes => .write addr bytes

/-- The addresses that a program holds after a demand, from those it held and the answer. -/
def Demand.account : Demand → Answer → Finset Nat → Finset Nat
  | .add .., .ok (some p), held => insert p held
  | .drop addr, .ok _, held => held.erase addr
  | .resize addr _, .ok (some p), held => insert p (held.erase addr)
  | _, _, held => held

/-- A heap, and the addresses that the program holds. -/
structure World (A : Type) where
  heap : Heap A
  holds : Finset Nat

section Runs

variable {A : Type} [Arena A]

namespace World

/-- The program may pass this address. -/
def MayName (w : World A) (addr : Nat) : Prop := addr = 0 ∨ addr ∈ w.holds ∨ w.heap.Rejects addr

def Permits (w : World A) : Call → Prop
  | .allocate _ | .zeroAllocate .. | .tryZeroAllocate .. => True
  | .reallocate addr _ | .tryReallocate addr _ | .release addr | .tryRelease addr => w.MayName addr
  | .store addr bytes =>
    ∃ p ∈ w.holds, ∃ n, Heap.usableSize p w.heap = .ok (some n) w.heap ∧ p ≤ addr ∧
      addr + bytes.length ≤ p + n

/-- A permitted call that has an answer. -/
inductive Step : World A → Call → Answer → World A → Prop
  | mk {w : World A} {call : Call} {answer : Answer} {h' : Heap A} : w.Permits call →
      Heap.attempt call.perform w.heap = .ok answer h' →
      Step w call answer ⟨h', call.demand.account answer w.holds⟩

end World

/-- What a program and a new heap come to, with the calls and answers so far. -/
inductive Run (arena : A) (memory : Memory) (config : Config) : List (Call × Answer) →
    World A → Prop
  | start {h : Heap A} : Heap.start arena memory config = .ok () h →
      Run arena memory config [] ⟨h, ∅⟩
  | step {past : List (Call × Answer)} {w w' : World A} {call : Call} {answer : Answer} :
      Run arena memory config past w →
      w.Step call answer w' → Run arena memory config (past ++ [(call, answer)]) w'

/-! ## Replaying calls -/

/-- An arena of one page. -/
def page : FixedArena := ⟨4096, 4096, 0, by decide, by decide, by decide⟩

/-- An arena that may take all but the last word of the address space. -/
def brink : FixedArena := ⟨18446744073709551000, 608, 0, by decide, by decide, by decide⟩

/-- The addresses that a program holds after these calls and answers, from those it held. -/
def accounts (held : Finset Nat) (past : List (Call × Answer)) : Finset Nat :=
  past.foldl (fun held c => c.1.demand.account c.2 held) held

theorem Run.holds {arena : A} {memory : Memory} {config : Config} {past : List (Call × Answer)}
    {w : World A} (hr : Run arena memory config past w) : w.holds = accounts ∅ past := by
  induction hr with
  | start _ => rfl
  | @step past w w' call answer _ hstep ih =>
    obtain ⟨-, -⟩ := hstep
    simp only [accounts, List.foldl_append, List.foldl_cons, List.foldl_nil] at ih ⊢
    rw [ih]

/-- The call names null or an address that is held, and does not write. -/
def Call.owned (held : Finset Nat) : Call → Bool
  | .allocate _ | .zeroAllocate .. | .tryZeroAllocate .. => true
  | .reallocate addr _ | .tryReallocate addr _ | .release addr | .tryRelease addr =>
    addr = 0 ∨ addr ∈ held
  | .store .. => false

/-- Each call names null or what is held when it is made. -/
def owned : Finset Nat → List (Call × Answer) → Bool
  | _, [] => true
  | held, (call, answer) :: rest => call.owned held && owned (call.demand.account answer held) rest

/-- The answers of a new heap to these calls and what they make of it, if nothing goes wrong. -/
def trial (arena : A) (memory : Memory) (config : Config) (calls : List Call) :
    Option (List Answer × Heap A) :=
  match Heap.start arena memory config with
  | .ok _ h => match Call.run calls h with
    | .ok answers h' => some (answers, h')
    | .error .. => none
  | .error .. => none

/-- The answer of one step, if it has one. -/
def Heap.answer? {α : Type} (x : HeapM A α) (h : Heap A) : Option α :=
  match x h with
  | .ok a _ => some a
  | .error .. => none

omit [Arena A] in
theorem Heap.answer_some {α : Type} {x : HeapM A α} {h : Heap A} {a : α}
    (hx : Heap.answer? x h = some a) : ∃ h', x h = .ok a h' := by
  unfold Heap.answer? at hx
  rcases hrun : x h with ⟨b, h'⟩ | ⟨stop, h'⟩
  · rw [hrun] at hx
    exact ⟨h', by rw [Option.some.inj hx]⟩
  · rw [hrun] at hx
    cases hx

/-- What stopped a step, if it was stopped. -/
def Heap.stop? {α : Type} (x : HeapM A α) (h : Heap A) : Option Stop :=
  match x h with
  | .ok .. => none
  | .error stop _ => some stop

omit [Arena A] in
theorem Heap.stop_some {α : Type} {x : HeapM A α} {h : Heap A} {stop : Stop}
    (hx : Heap.stop? x h = some stop) : ∃ h', x h = .error stop h' := by
  unfold Heap.stop? at hx
  rcases hrun : x h with ⟨b, h'⟩ | ⟨stop', h'⟩
  · rw [hrun] at hx
    cases hx
  · rw [hrun] at hx
    exact ⟨h', by rw [Option.some.inj hx]⟩

theorem Call.owned_permits {w : World A} {call : Call} (h : call.owned w.holds = true) :
    w.Permits call := by
  cases call with
  | allocate | zeroAllocate | tryZeroAllocate => trivial
  | reallocate addr | tryReallocate addr | release addr | tryRelease addr =>
    rcases of_decide_eq_true h with h0 | hin
    · exact .inl h0
    · exact .inr (.inl hin)
  | store => cases h

/-- Calls that name what is held at the time make a run. -/
theorem Run.replay {arena : A} {memory : Memory} {config : Config} {past : List (Call × Answer)}
    {w : World A} {h' : Heap A} {calls : List Call} {answers : List Answer}
    (hr : Run arena memory config past w) (hrun : Call.run calls w.heap = .ok answers h')
    (howned : owned w.holds (calls.zip answers) = true) :
    Run arena memory config (past ++ calls.zip answers)
      ⟨h', accounts w.holds (calls.zip answers)⟩ := by
  induction calls generalizing past w answers with
  | nil =>
    injection hrun with h1 h2
    subst h1 h2
    simpa [accounts] using hr
  | cons call calls ih =>
    obtain ⟨answer, h₁, hcall, hrun⟩ := HeapM.bind_ok.mp hrun
    obtain ⟨answers', h₂, hrest, hlast⟩ := HeapM.bind_ok.mp hrun
    injection hlast with h1 h2
    subst h1 h2
    obtain ⟨hone, hothers⟩ := Bool.and_eq_true_iff.mp howned
    have := ih (.step hr (.mk (Call.owned_permits hone) hcall)) hrest hothers
    rw [List.append_assoc] at this
    exact this

theorem trial_some {β : Type} {arena : A} {memory : Memory} {config : Config} {calls : List Call}
    {answers : List Answer} (look : Heap A → β) {b : β}
    (ht : (trial arena memory config calls).map (fun x => (x.1, look x.2)) = some (answers, b)) :
    ∃ h h', Heap.start arena memory config = .ok () h ∧ Call.run calls h = .ok answers h' ∧
      look h' = b := by
  obtain ⟨⟨as, h'⟩, htrial, hlook⟩ := Option.map_eq_some_iff.mp ht
  obtain ⟨rfl, rfl⟩ := Prod.mk.inj hlook
  unfold trial at htrial
  rcases hstart : Heap.start arena memory config with ⟨_, h⟩ | ⟨stop, h⟩
  · rw [hstart] at htrial
    rcases hrun : Call.run calls h with ⟨as', h''⟩ | ⟨stop, h''⟩
    · simp only [hrun] at htrial
      obtain ⟨rfl, rfl⟩ := Prod.mk.inj (Option.some.inj htrial)
      exact ⟨h, _, rfl, hrun, rfl⟩
    · simp only [hrun] at htrial
      cases htrial
  · rw [hstart] at htrial
    cases htrial

/-- A trial of calls that name what is held at the time is a run, and ends in a heap
    that can be looked at. -/
theorem Run.of_trial {β : Type} (arena : A) (memory : Memory) (config : Config) (calls : List Call)
    (answers : List Answer) (look : Heap A → β) (b : β)
    (ht : (trial arena memory config calls).map (fun x => (x.1, look x.2)) = some (answers, b))
    (howned : owned ∅ (calls.zip answers) = true) :
    ∃ w, Run arena memory config (calls.zip answers) w ∧ w.holds = accounts ∅ (calls.zip answers) ∧
      look w.heap = b := by
  obtain ⟨h, h', hstart, hrun, hlook⟩ := trial_some look ht
  exact ⟨_, Run.replay (.start hstart) hrun howned, rfl, hlook⟩

end Runs

section Turns

variable {A : Type} [Arena A] [LawfulArena A] {w w' : World A} {h h' : Heap A}
  {row row' : List Tile} {idx idx' : Index} {call : Call} {answer : Answer} {d : Demand} {e : Entry}

/-- The heap is laid, and its live blocks are those that the program holds. -/
structure World.Sound (w : World A) (row : List Tile) (idx : Index) : Prop where
  laid : w.heap.Laid row idx
  checkable : w.heap.Checkable
  holds : ∀ p, p ∈ w.holds ↔ ∃ e ∈ live row, e.bp = p

/-- The call comes to a check of a heap that has taken all but the last word of the address
    space. The check rounds that heap's end up to a word, which overflows. -/
structure World.Overruns (w : World A) (call : Call) : Prop where
  checks : w.heap.config.checkEachOp = true
  ends : ∃ h', Heap.attempt call.perform w.heap = .error (.fault .overflow) h' ∧
    LawfulArena.Sane h'.arena ∧ h'.bounds.high + wordSize = wordLimit

/-- The answer names no address. -/
def Answer.Blank (a : Answer) : Prop := a = .ok none ∨ ∃ e, a = .error e

/-- The demand is neither to release a live block nor to write. -/
structure Demand.Deniable (d : Demand) (row : List Tile) : Prop where
  not_drop : ∀ e ∈ live row, d ≠ .drop e.bp
  not_write : ∀ a bs, d ≠ .write a bs

/-- What a demand does to a laid heap and its row. -/
inductive Turn (h h' : Heap A) (row : List Tile) : List Tile → Demand → Answer → Prop
  | still {d : Demand} {answer : Answer} : h.Same h' → answer.Blank → d.Deniable row →
      Turn h h' row row d answer
  | added {row' : List Tile} {bytes : Nat} {zero : Bool} {e : Entry} :
      h.Allocated h' row row' bytes e →
      (zero = true → ∀ i, i < bytes → h'.store.memory.byte (e.bp + i) = 0) →
      Turn h h' row row' (.add bytes zero) (.ok (some e.bp))
  | dropped {row' : List Tile} {e : Entry} : e ∈ live row → h.Released h' row row' e.bp →
      Turn h h' row row' (.drop e.bp) (.ok none)
  | resized {row' : List Tile} {bytes : Nat} {e e' : Entry} : e ∈ live row →
      h.Resized h' row row' e e' bytes →
      Turn h h' row row' (.resize e.bp bytes) (.ok (some e'.bp))
  | written {e : Entry} {addr : Nat} {bytes : List UInt8} : e ∈ live row → e.bp ≤ addr →
      addr + bytes.length + 8 ≤ e.bp + e.size →
      h' = h.withMemory (h.store.memory.store addr bytes) →
      Turn h h' row row (.write addr bytes) (.ok none)

theorem Demand.deniable_add (n : Nat) (zero : Bool) : (Demand.add n zero).Deniable row := by
  constructor
  · intro e _ hd
    cases hd
  · intro a bs hd
    cases hd

theorem Demand.deniable_resize (addr n : Nat) : (Demand.resize addr n).Deniable row := by
  constructor
  · intro e _ hd
    cases hd
  · intro a bs hd
    cases hd

theorem Demand.deniable_drop {addr : Nat} (h : ∀ e ∈ live row, e.bp ≠ addr) :
    (Demand.drop addr).Deniable row := by
  constructor
  · intro e he hd
    injection hd with hd
    exact h e he hd.symm
  · intro a bs hd
    cases hd

theorem Turn.later (ht : Turn h h' row row' d answer) : h.Later h' := by
  cases ht with
  | still hs => exact hs.later
  | added ha => exact ha.later
  | dropped _ hr => exact hr.later
  | resized _ hr => exact hr.later
  | written _ _ _ hw => rw [hw]; exact ⟨rfl, rfl, rfl, Nat.le_refl _⟩

/-- Below its first block the heap is left alone. -/
theorem Turn.untouched (ht : Turn h h' row row' d answer) (hl : h.Laid row idx) {x : Nat}
    (hx : x + 8 < h.firstBlock) :
    h'.store.memory.byte x = h.store.memory.byte x := by
  cases ht with
  | still hs => rw [hs.store]
  | added ha => exact ha.kept x (.inl hx)
  | dropped _ hr => exact hr.kept x (.inl hx)
  | resized _ hr => exact hr.kept x (.inl hx)
  | written he hle _ hw =>
    have := hl.tiled.row.le_of_mem_held (mem_live.mp he).1
    rw [hw]
    exact Memory.byte_store_outside _ (by omega)

omit [Arena A] [LawfulArena A] in
/-- A blank answer to anything but a release of what is held changes no account. -/
theorem Demand.account_blank {held : Finset Nat} {a : Answer} (ha : a.Blank)
    (hd : ∀ p ∈ held, d ≠ .drop p) : d.account a held = held := by
  rcases ha with rfl | ⟨e, rfl⟩
  · cases d with
    | drop p => exact Finset.erase_eq_of_notMem fun hin => hd p hin rfl
    | _ => rfl
  · cases d <;> rfl

/-- The program's account is right after a turn if it was before. -/
theorem Turn.account (ht : Turn h h' row row' d answer) (hl : h.Laid row idx) {held : Finset Nat}
    (hheld : ∀ p, p ∈ held ↔ ∃ e ∈ live row, e.bp = p) :
    ∀ p, p ∈ d.account answer held ↔ ∃ e ∈ live row', e.bp = p := by
  intro p
  cases ht with
  | still _ hblank hdeniable =>
    have hsame : d.account answer held = held := Demand.account_blank hblank fun p hin hd => by
      obtain ⟨e, he, rfl⟩ := (hheld p).mp hin
      exact hdeniable.not_drop e he hd
    rw [hsame]
    exact hheld p
  | added ha _ =>
    simp only [Demand.account, Finset.mem_insert, hheld, ha.gained.mem, or_and_right, exists_or,
      exists_eq_left, eq_comm (a := p)]
  | @dropped _ e he hr =>
    simp only [Demand.account, Finset.mem_erase, hheld, live_without hr.held,
      List.mem_filter, bne_iff_ne]
    constructor
    · rintro ⟨hne, f, hf, rfl⟩
      exact ⟨f, ⟨hf, hne⟩, rfl⟩
    · rintro ⟨f, ⟨hf, hne⟩, rfl⟩
      exact ⟨hne, f, hf, rfl⟩
  | @resized _ _ e e' he hr =>
    simp only [Demand.account, Finset.mem_insert, Finset.mem_erase, hheld, hr.swapped.mem]
    constructor
    · rintro (rfl | ⟨hne, f, hf, rfl⟩)
      · exact ⟨e', .inl rfl, rfl⟩
      · exact ⟨f, .inr ⟨hf, fun hfe => hne (congrArg Entry.bp hfe)⟩, rfl⟩
    · rintro ⟨f, rfl | ⟨hf, hne⟩, rfl⟩
      · exact .inl rfl
      · exact .inr ⟨fun hbp => hne (hl.tiled.live_inj hf he hbp), f, hf, rfl⟩
  | written => exact hheld p

/-! ## Calls -/

namespace World.Sound

/-- A demand that was refused. -/
theorem still (hw : w.Sound row idx) {x : HeapM A (Option Nat)} {a : Answer}
    (hx : Heap.attempt x w.heap = .ok a h') (hs : w.heap.Same h') (ha : a.Blank)
    (hd : d.Deniable row) :
    ∃ answer h' row' idx', Heap.Answers (Heap.attempt x) w.heap answer h' ∧ h'.Laid row' idx' ∧
      Turn w.heap h' row row' d answer :=
  ⟨a, h', row, idx, .of_ok hx (hs.checkable hw.checkable), hw.laid.same hs, .still hs ha hd⟩

/-- A demand with nothing left to say but what it did. -/
theorem moved {x : HeapM A (Option Nat)} {a : Option Nat} (hx : Heap.Answers x w.heap a h')
    (hl : h'.Laid row' idx') (ht : Turn w.heap h' row row' d (.ok a)) :
    ∃ answer h' row' idx', Heap.Answers (Heap.attempt x) w.heap answer h' ∧ h'.Laid row' idx' ∧
      Turn w.heap h' row row' d answer :=
  ⟨.ok a, h', row', idx', hx.attempt, hl, ht⟩

/-- An address that the program may name is null, that of a live block, or turned down. -/
theorem named (hw : w.Sound row idx) {addr : Nat} (hp : w.MayName addr) :
    addr = 0 ∨ (∃ e ∈ live row, e.bp = addr) ∨ addr ≠ 0 ∧ w.heap.Rejects addr := by
  rcases hp with h0 | hin | hr
  · exact .inl h0
  · exact .inr (.inl ((hw.holds addr).mp hin))
  · by_cases h0 : addr = 0
    · exact .inl h0
    · exact .inr (.inr ⟨h0, hr⟩)

/-- Releasing is refused, and then no live block was meant, or it is done. -/
theorem tryRelease (hw : w.Sound row idx) {addr : Nat} (hp : w.MayName addr) :
    (∃ err, Heap.tryRelease addr w.heap = .error (.refused err) w.heap ∧
      (Demand.drop addr).Deniable row) ∨
    ∃ h' row' idx', Heap.Answers (Heap.tryRelease addr) w.heap () h' ∧ h'.Laid row' idx' ∧
      Turn w.heap h' row row' (.drop addr) (.ok none) := by
  rcases hw.named hp with rfl | ⟨e, he, rfl⟩ | ⟨h0, hr⟩
  · exact .inr ⟨w.heap, row, idx, .of_ok (Heap.tryRelease_null _) hw.checkable, hw.laid,
      .still (Heap.Same.refl _) (.inl rfl)
        (Demand.deniable_drop fun e he => Heap.live_ne_zero hw.laid he)⟩
  · obtain ⟨h', row', idx', hrun, hl', hreleased⟩ := Heap.tryRelease_live hw.laid he
    exact .inr ⟨h', row', idx', hrun, hl', .dropped he hreleased⟩
  · obtain ⟨fault, hcheck⟩ := hr
    exact .inl ⟨_, Heap.tryRelease_rejected hcheck h0,
      Demand.deniable_drop fun e he => Heap.Rejects.not_live ⟨fault, hcheck⟩ hw.laid he⟩

/-- Reallocating is refused, and then no live block was to be released, or it is done. -/
theorem tryReallocate (hw : w.Sound row idx) {addr : Nat} (hp : w.MayName addr) (size : Nat) :
    (∃ err h', Heap.tryReallocate addr size w.heap = .error (.refused err) h' ∧ w.heap.Same h' ∧
      (Call.tryReallocate addr size).demand.Deniable row) ∨
    ∃ a h' row' idx', Heap.Answers (Heap.tryReallocate addr size) w.heap a h' ∧ h'.Laid row' idx' ∧
      Turn w.heap h' row row' (Call.tryReallocate addr size).demand (.ok a) := by
  by_cases hn : size = 0
  · subst hn
    rcases hw.tryRelease hp with ⟨err, hrun, hd⟩ | ⟨h', row', idx', hrun, hl', ht⟩
    · refine .inl ⟨err, w.heap, ?_, Heap.Same.refl _, hd⟩
      rw [Heap.tryReallocate_zero, HeapM.bind_apply, hrun]
    · refine .inr ⟨none, h', row', idx', ?_, hl', ht⟩
      rw [Heap.tryReallocate_zero]
      exact hrun.bind rfl
  rcases hw.named hp with rfl | ⟨e, he, rfl⟩ | ⟨h0, hr⟩
  · rw [show (Call.tryReallocate 0 size).demand = .add size false from
      (if_neg hn).trans (if_pos rfl)]
    rcases Heap.tryReallocate_null hw.laid hn with
      ⟨err, h', hrun, hsame⟩ | ⟨e, h', row', idx', hrun, hl', ha⟩
    · exact .inl ⟨err, h', hrun, hsame, Demand.deniable_add _ _⟩
    · exact .inr ⟨_, h', row', idx', hrun, hl', .added ha (absurd · Bool.false_ne_true)⟩
  · rw [show (Call.tryReallocate e.bp size).demand = .resize e.bp size from
      (if_neg hn).trans (if_neg (Heap.live_ne_zero hw.laid he))]
    rcases Heap.tryReallocate_live hw.laid he hn with
      ⟨err, h', hrun, hsame⟩ | ⟨e', h', row', idx', hrun, hl', hr⟩
    · exact .inl ⟨err, h', hrun, hsame, Demand.deniable_resize _ _⟩
    · exact .inr ⟨_, h', row', idx', hrun, hl', .resized he hr⟩
  · rw [show (Call.tryReallocate addr size).demand = .resize addr size from
      (if_neg hn).trans (if_neg h0)]
    obtain ⟨fault, hcheck⟩ := hr
    exact .inl ⟨_, _, Heap.tryReallocate_rejected hcheck h0 hn, Heap.Same.refl _,
      Demand.deniable_resize _ _⟩

/-- A write into the payload of a live block. -/
theorem store (hw : w.Sound row idx) {addr : Nat} {bytes : List UInt8}
    (hp : w.Permits (.store addr bytes)) :
    ∃ e ∈ live row, e.bp ≤ addr ∧ addr + bytes.length + 8 ≤ e.bp + e.size := by
  obtain ⟨p, hin, n, husable, hle, hlen⟩ := hp
  obtain ⟨e, he, rfl⟩ := (hw.holds p).mp hin
  obtain ⟨t, -, -, rfl, h32⟩ := hw.laid.tiled.mem_live.mp he
  rw [Heap.usableSize_live hw.laid he] at husable
  injection husable with husable
  obtain rfl := Option.some.inj husable
  refine ⟨_, he, hle, ?_⟩
  simp only [Tile.entry] at hlen ⊢
  omega

/-- Every permitted call does what its demand says, and answers unless a check runs into the
    end of the address space. -/
theorem perform_turn (hw : w.Sound row idx) (hp : w.Permits call) :
    ∃ answer h' row' idx', Heap.Answers (Heap.attempt call.perform) w.heap answer h' ∧
      h'.Laid row' idx' ∧
      Turn w.heap h' row row' call.demand answer := by
  cases call with
  | allocate size =>
    rcases Heap.allocate_spec hw.laid hw.checkable size with
      ⟨h', hrun, hsame⟩ | ⟨e, h', row', idx', hrun, hl', ha⟩
    · exact moved hrun (hw.laid.same hsame) (.still hsame (.inl rfl) (Demand.deniable_add _ _))
    · exact moved hrun hl' (.added ha (absurd · Bool.false_ne_true))
  | zeroAllocate count elemSize =>
    rcases Heap.zeroAllocate_spec hw.laid hw.checkable count elemSize with
      ⟨h', hrun, hsame⟩ | ⟨e, h', row', idx', hrun, hl', ha, hzero⟩
    · exact moved hrun (hw.laid.same hsame) (.still hsame (.inl rfl) (Demand.deniable_add _ _))
    · exact moved hrun hl' (.added ha fun _ => hzero)
  | tryZeroAllocate count elemSize =>
    rcases Heap.tryZeroAllocate_spec hw.laid hw.checkable count elemSize with
      ⟨err, h', hrun, hsame⟩ | hnone | ⟨e, h', row', idx', hrun, hl', ha, hzero⟩
    · exact hw.still (Heap.attempt_refused hrun) hsame (.inr ⟨err, rfl⟩) (Demand.deniable_add _ _)
    · exact moved hnone hw.laid (.still (Heap.Same.refl _) (.inl rfl) (Demand.deniable_add _ _))
    · exact moved hrun hl' (.added ha fun _ => hzero)
  | release addr =>
    rcases hw.tryRelease hp with ⟨err, hrun, hd⟩ | ⟨h', row', idx', hrun, hl', ht⟩
    · obtain ⟨h', hrun, hsame⟩ := Heap.release_refused hrun (Heap.Same.refl _)
      refine hw.still (Heap.attempt_ok (a := none) ?_) hsame (.inl rfl) hd
      simp only [Call.perform, HeapM.bind_apply, hrun, HeapM.pure_apply]
    · exact moved (hrun.release.bind rfl) hl' ht
  | tryRelease addr =>
    rcases hw.tryRelease hp with ⟨err, hrun, hd⟩ | ⟨h', row', idx', hrun, hl', ht⟩
    · refine hw.still (Heap.attempt_refused ?_) (Heap.Same.refl _) (.inr ⟨err, rfl⟩) hd
      simp only [Call.perform, HeapM.bind_apply, hrun]
    · exact moved (hrun.bind rfl) hl' ht
  | reallocate addr size =>
    rcases hw.tryReallocate hp size with ⟨err, h', hrun, hsame, hd⟩ |
      ⟨a, h', row', idx', hrun, hl', ht⟩
    · obtain ⟨h'', hrun, hsame⟩ := Heap.reallocate_refused hrun hsame
      exact hw.still (Heap.attempt_ok hrun) hsame (.inl rfl) hd
    · exact moved hrun.reallocate hl' ht
  | tryReallocate addr size =>
    rcases hw.tryReallocate hp size with ⟨err, h', hrun, hsame, hd⟩ |
      ⟨a, h', row', idx', hrun, hl', ht⟩
    · exact hw.still (Heap.attempt_refused hrun) hsame (.inr ⟨err, rfl⟩) hd
    · exact moved hrun hl' ht
  | store addr bytes =>
    obtain ⟨e, he, hle, hlen⟩ := hw.store hp
    have hl' : (w.heap.withMemory (w.heap.store.memory.store addr bytes)).Laid row idx :=
      hw.laid.withMemory (Heap.Laid.confined he fun x hx => Memory.byte_store_outside _ fun hin =>
        hx ⟨by omega, by omega⟩)
    exact moved (.of_ok rfl hw.checkable) hl' (.written he hle hlen rfl)

/-- A permitted call has an answer, unless it overruns. -/
theorem answers (hw : w.Sound row idx) (hp : w.Permits call) :
    (∃ answer w', w.Step call answer w') ∨ w.Overruns call := by
  obtain ⟨answer, h', row', idx', hanswers, hl', ht⟩ := hw.perform_turn hp
  by_cases hc : h'.Checkable
  · exact .inl ⟨answer, _, .mk hp (hanswers.run hc)⟩
  · obtain ⟨hchecks, hend⟩ := hl'.not_checkable hc
    rw [ht.later.config] at hchecks
    exact .inr ⟨hchecks, h', hanswers.halt hc, hl'.sane, hend⟩

/-- A step leads from a sound world to a sound world, by the turn that its call demands. -/
theorem step (hw : w.Sound row idx) (hs : w.Step call answer w') :
    ∃ row' idx', w'.Sound row' idx' ∧ Turn w.heap w'.heap row row' call.demand answer := by
  obtain ⟨hp, hrun⟩ := hs
  obtain ⟨answer', h', row', idx', hanswers, hl', ht⟩ := hw.perform_turn hp
  obtain ⟨rfl, rfl, hc⟩ := hanswers.inv hrun
  exact ⟨row', idx', ⟨hl', hc, ht.account hw.laid hw.holds⟩, ht⟩

end World.Sound

/-- After every call of a run the heap is laid, and the program holds just its live blocks. -/
theorem Run.sound {arena : A} {memory : Memory} {config : Config} {past : List (Call × Answer)}
    (hs : LawfulArena.Sane arena) (hr : Run arena memory config past w) :
    ∃ row idx, w.Sound row idx := by
  induction hr with
  | start hrun =>
    obtain ⟨⟨row, idx, hl, hlive⟩, hc, -⟩ := Heap.start_laid hs hrun
    exact ⟨row, idx, hl, hc, fun p => by simp [hlive]⟩
  | step _ hstep ih =>
    obtain ⟨row, idx, hw⟩ := ih
    obtain ⟨row', idx', hw', -⟩ := hw.step hstep
    exact ⟨row', idx', hw'⟩

/-- A heap does not move, and leaves alone what was below it. -/
theorem Run.founded {arena : A} {memory : Memory} {config : Config} {past : List (Call × Answer)}
    (hs : LawfulArena.Sane arena) (hr : Run arena memory config past w) :
    w.heap.Founded arena memory := by
  induction hr with
  | start hrun => exact (Heap.start_laid hs hrun).2.2
  | step hr hstep ih =>
    obtain ⟨row, idx, hw⟩ := hr.sound hs
    obtain ⟨_, _, _, ht⟩ := hw.step hstep
    refine ⟨ht.later.prologue.trans ih.prologue, ?_, ?_⟩
    · rw [ht.later.firstBlock]
      exact Nat.le_trans ih.room ht.later.high_le
    · intro x hx
      rw [← ih.below x hx]
      exact ht.untouched hw.laid (by rw [Heap.firstBlock, ih.prologue, doubleWord]; omega)

/-- A heap keeps the low end of its arena. -/
theorem Run.low {arena : A} {memory : Memory} {config : Config} {past : List (Call × Answer)}
    (hs : LawfulArena.Sane arena) (hr : Run arena memory config past w) :
    w.heap.bounds.low = Arena.low arena ∧ Arena.low arena ≤ Arena.high arena := by
  induction hr with
  | start hrun => exact Heap.start_low hs hrun
  | step hr hstep ih =>
    obtain ⟨row, idx, hw⟩ := hr.sound hs
    obtain ⟨_, _, _, ht⟩ := hw.step hstep
    exact ⟨ht.later.low.trans ih.1, ih.2⟩

/-- A heap keeps its settings. -/
theorem Run.config {arena : A} {memory : Memory} {config : Config} {past : List (Call × Answer)}
    (hs : LawfulArena.Sane arena) (hr : Run arena memory config past w) :
    w.heap.config = config := by
  induction hr with
  | start hrun => exact Heap.start_config hs hrun
  | step hr hstep ih =>
    obtain ⟨row, idx, hw⟩ := hr.sound hs
    obtain ⟨_, _, _, ht⟩ := hw.step hstep
    exact ht.later.config.trans ih

end Turns

end BoundaryTag
