/-
  BoundaryTag.Proofs.Ledger — the events of a heap account for its blocks and for its bytes.

  Events are entries of a ledger of the addresses in use. `allocated` adds one, `released` takes
  one out, and `reallocated` takes out the old address of a block that moved, the new one having
  been added by the `allocated` before it. An entry that adds what is there, or takes out what
  is not, spoils the ledger. The books of a heap are right (`Booked`) if its ledger has the
  addresses that are in use and its arena grew by what the events tell.

  A step may be refused, and has to leave the books right then too. `Leaves` says in what states
  a step ends, with an answer or refused; where it is stopped by a fault nothing is said.

  Proved: every call leaves the books right, for the addresses that the program then holds
  (`World.Sound.perform_booked`). So after every call of a session, in which the heap may also
  be checked and shown, the ledger has the addresses of the allocated blocks, and the extensions
  told make up what the arena handed out since (`Session.accounted`).
-/

import BoundaryTag.Proofs.Verdicts
import BoundaryTag.Proofs.WellFormed
import Mathlib.Algebra.GroupWithZero.Nat

namespace BoundaryTag

/-! ## Entries -/

namespace Event

/-- The addresses in use after the event, if what it adds is new and what it takes out is there. -/
def post : Event → Finset Nat → Option (Finset Nat)
  | allocated _ _ addr, held => if addr ∈ held then none else some (insert addr held)
  | released _ addr, held => if addr ∈ held then some (held.erase addr) else none
  | reallocated old _ _ false, held => if old ∈ held then some (held.erase old) else none
  | _, held => some held

/-- The bytes that the arena gave, by this event, and where it ends since. -/
def extension : Event → Option (Nat × Nat)
  | extended bytes high => some (bytes, high)
  | _ => none

end Event

/-- The addresses in use after these events, from none. -/
def ledger (trace : Array Event) : Option (Finset Nat) :=
  trace.toList.foldlM (fun held e => e.post held) ∅

/-- The extensions that these events tell of. -/
def extensions (trace : Array Event) : List (Nat × Nat) := trace.toList.filterMap Event.extension

theorem ledger_push (trace : Array Event) (e : Event) :
    ledger (trace.push e) = (ledger trace).bind e.post := by
  simp [ledger, List.foldlM_append]

theorem extensions_push (trace : Array Event) (e : Event) :
    extensions (trace.push e) = extensions trace ++ e.extension.toList := by
  cases h : e.extension <;> simp [extensions, h]

namespace Heap

variable {A : Type} {α β : Type} {h h' : Heap A} {P : α → Heap A → Prop} {Q : β → Heap A → Prop}
  {R : Heap A → Prop}

/-! ## Where steps end -/

/-- With an answer the step ends in a state that goes with it, and refused in one that goes with
    that. -/
structure Leaves (x : HeapM A α) (h : Heap A) (P : α → Heap A → Prop)
    (R : Heap A → Prop) : Prop where
  ok : ∀ {a h'}, x h = .ok a h' → P a h'
  refused : ∀ {e h'}, x h = .error (.refused e) h' → R h'

namespace Leaves

variable {x : HeapM A α} {f : α → HeapM A β}

theorem of_ok {a : α} (hx : x h = .ok a h') (hp : P a h') : Leaves x h P R := by
  refine ⟨fun hrun => ?_, fun hrun => ?_⟩ <;> rw [hx] at hrun <;> cases hrun
  exact hp

theorem of_error {stop : Stop} (hx : x h = .error stop h') (hr : ∀ e, stop = .refused e → R h') :
    Leaves x h P R := by
  refine ⟨fun hrun => ?_, fun hrun => ?_⟩ <;> rw [hx] at hrun <;> cases hrun
  exact hr _ rfl

protected theorem pure {a : α} (hp : P a h) : Leaves (pure a) h P R := of_ok rfl hp

theorem refuse {e : HeapError} (hr : R h) : Leaves (refuse e) h P R := of_error rfl fun _ _ => hr

theorem mono {P' : α → Heap A → Prop} {R' : Heap A → Prop} (hx : Leaves x h P R)
    (hP : ∀ a h', P a h' → P' a h') (hR : ∀ h', R h' → R' h') :
    Leaves x h P' R' := ⟨fun hrun => hP _ _ (hx.ok hrun), fun hrun => hR _ (hx.refused hrun)⟩

protected theorem bind (hx : Leaves x h P R) (hf : ∀ a h', P a h' → Leaves (f a) h' Q R) :
    Leaves (x >>= f) h Q R := by
  constructor
  · intro b h' hrun
    obtain ⟨a, h₁, hx₁, hrun⟩ := HeapM.bind_ok.mp hrun
    exact (hf a h₁ (hx.ok hx₁)).ok hrun
  · intro e h' hrun
    rw [HeapM.bind_apply] at hrun
    rcases hx₁ : x h with ⟨a, h₁⟩ | ⟨stop, h₁⟩
    · rw [hx₁] at hrun
      exact (hf a h₁ (hx.ok hx₁)).refused hrun
    · rw [hx₁] at hrun
      cases hrun
      exact hx.refused hx₁

/-- The first of two steps ends where the second can start. -/
theorem next (hx : Leaves x h (fun a h' => Leaves (f a) h' Q R) R) : Leaves (x >>= f) h Q R :=
  hx.bind fun _ _ => id

theorem refused_bind {e : HeapError} (hr : R h) : Leaves (Heap.refuse e >>= f) h Q R :=
  (refuse (P := fun _ _ => False) hr).bind fun _ _ => False.elim

theorem ite {p : Prop} [Decidable p] {x y : HeapM A α} (hx : p → Leaves x h P R)
    (hy : ¬ p → Leaves y h P R) :
    Leaves (if p then x else y) h P R := by
  split
  · exact hx ‹_›
  · exact hy ‹_›

theorem bind_get {f : Heap A → HeapM A β} (hf : Leaves (f h) h Q R) : Leaves (get >>= f) h Q R :=
  ⟨hf.ok, hf.refused⟩

theorem attempt {R' : Heap A → Prop} (hx : Leaves x h P R) :
    Leaves (attempt x) h (fun a h' => match a with | .ok a => P a h' | .error _ => R h') R' := by
  refine ⟨fun {a h'} hrun => ?_, fun hrun => (Unrefusing.attempt x _ _ _ hrun).elim⟩
  cases a with
  | ok a => exact hx.ok (attempt_answer hrun)
  | error e => exact hx.refused (attempt_error hrun)

theorem emit {event : Event} {P : Unit → Heap A → Prop}
    (hp : P () { h with trace := h.trace.push event }) : Leaves (emit event) h P R :=
  of_ok rfl hp

theorem log {event : Event} {P : Unit → Heap A → Prop} (hp : P () (h.told event)) :
    Leaves (log event) h P R := of_ok (log_told event h) hp

theorem modifyMemory {f : Memory → Memory} {P : Unit → Heap A → Prop}
    (hp : P () (h.withMemory (f h.store.memory))) :
    Leaves (modifyMemory f) h P R := of_ok rfl hp

theorem store {x : StoreM α} (hp : ∀ a s, x h.store = .ok a s → P a { h with store := s }) :
    Leaves (liftM x) h P R := by
  rcases hx : x h.store with ⟨a, s⟩ | ⟨fault, s⟩
  · exact of_ok (by rw [HeapM.lift_store, hx]) (hp a s hx)
  · exact of_error (by rw [HeapM.lift_store, hx]) fun e he => by cases he

theorem writing {x : Writing α} (hp : ∀ a s, P a { h with store := s }) :
    Leaves (liftM x) h P R := by
  have hstore : Leaves (liftM (liftM x : StoreM α)) h P R := store fun a s _ => hp a s
  exact hstore

variable [Arena A]

theorem looks (hx : Looks x) (hp : ∀ a, x h = .ok a h → P a h)
    (hr : ∀ e, x h = .error (.refused e) h → R h) : Leaves x h P R := by
  rcases hrun : x h with ⟨a, h₁⟩ | ⟨stop, h₁⟩
  · obtain rfl := hx.ok hrun
    exact of_ok hrun (hp a hrun)
  · obtain rfl := hx.error hrun
    exact of_error hrun fun e he => hr e (he ▸ hrun)

/-- A look that is not refused. -/
theorem sees (hx : Looks x) (hu : Unrefusing x) (hp : ∀ a, x h = .ok a h → P a h) :
    Leaves x h P R :=
  looks hx hp fun e hrun => (hu h e h hrun).elim

theorem except {x : Except Fault α} (hp : ∀ a, P a h) : Leaves (liftM x) h P R :=
  sees (.except x) (.except x) fun a _ => hp a

theorem reading {x : Reading α} (hp : ∀ a, P a h) : Leaves (liftM x) h P R :=
  sees (.reading x) (.reading x) fun a _ => hp a

theorem region {P : Region → Heap A → Prop} (hp : P h.bounds h) : Leaves region h P R := by
  refine sees .region .region fun r hrun => ?_
  obtain ⟨-, rfl, -⟩ := region_ok.mp hrun
  exact hp

/-- A check that finds something stops the step, and is not a refusal. -/
theorem checkAfter {op : Operation} {P : Unit → Heap A → Prop} (hp : P () h) :
    Leaves (checkAfter op) h P R := by
  refine ⟨fun hrun => ?_, fun hrun => (Unrefusing.checkAfter op _ _ _ hrun).elim⟩
  obtain rfl := checkAfter_still hrun
  exact hp

end Leaves

variable [Arena A] [LawfulArena A] {before n : Nat} {held held' : Finset Nat} {event : Event}
  {request size addr : Nat}

/-! ## Books -/

/-- The heap logs, its ledger has the addresses `held`, and its arena has grown from `before` by
    what was told, the last time to where it ends now. -/
structure Booked (before : Nat) (held : Finset Nat) (h : Heap A) : Prop where
  logs : h.config.logEvents = true
  sane : LawfulArena.Sane h.arena
  ledger : ledger h.trace = some held
  high : h.bounds.high = before + ((extensions h.trace).map Prod.fst).sum
  last : ∀ x ∈ (extensions h.trace).getLast?, x.2 = h.bounds.high

/-- The arena has grown by `n` bytes that are still to be told. -/
structure Owing (before : Nat) (held : Finset Nat) (n : Nat) (h : Heap A) : Prop where
  sane : LawfulArena.Sane h.arena
  booked : ∃ a : A, Booked before held { h with arena := a } ∧ h.bounds.high = Arena.high a + n

namespace Booked

theorem store (hb : Booked before held h) (s : Store) : Booked before held { h with store := s } :=
  ⟨hb.logs, hb.sane, hb.ledger, hb.high, hb.last⟩

/-- An event that tells of no extension. -/
theorem push (hb : Booked before held h) (hpost : event.post held = some held')
    (hext : event.extension = none) :
    Booked before held' { h with trace := h.trace.push event } := by
  have hsame : extensions (h.trace.push event) = extensions h.trace := by rw [extensions_push, hext,
      Option.toList_none, List.append_nil]
  refine ⟨hb.logs, hb.sane, ?_, ?_, ?_⟩
  · rw [ledger_push, hb.ledger, Option.bind_some, hpost]
  · rw [hsame]
    exact hb.high
  · rw [hsame]
    exact hb.last

theorem told (hb : Booked before held h) (hpost : event.post held = some held')
    (hext : event.extension = none) :
    Booked before held' (h.told event) := by
  rw [Heap.told, if_pos hb.logs]
  exact hb.push hpost hext

/-! ## Growing -/

theorem claimOrTell (hb : Booked before held h) :
    Leaves (claimOrTell n) h (fun _ => Owing before held n) (Booked before held) := by
  rcases hx : Arena.extend n h.arena with ⟨start, a⟩ | ⟨e, a⟩
  · obtain ⟨-, -, hhigh, -, hsane⟩ := LawfulArena.extend_ok hb.sane hx
    have hrun : Heap.claimOrTell n h = .ok start { h with arena := a } := by
      rw [claimOrTell_apply, hx]
    exact .of_ok hrun ⟨hsane, h.arena, hb, hhigh⟩
  · obtain ⟨-, hhigh, hsane⟩ := LawfulArena.extend_error hb.sane hx
    have hb' : Booked before held { h with arena := a } :=
      ⟨hb.logs, hsane, hb.ledger, hhigh.trans hb.high, fun x hx => (hb.last x hx).trans hhigh.symm⟩
    have hrun : Heap.claimOrTell n h = .error (.refused (.arena e))
        (Heap.told { h with arena := a } (.cannotGrow n)) := by
      rw [claimOrTell_apply, hx]
    exact .of_error hrun fun _ _ => hb'.told rfl rfl

end Booked

namespace Owing

theorem store (ho : Owing before held n h) (s : Store) :
    Owing before held n { h with store := s } := by
  obtain ⟨a, hb, hhigh⟩ := ho.booked
  exact ⟨ho.sane, a, hb.store s, hhigh⟩

/-- The extension is told. -/
theorem told (ho : Owing before held n h) :
    Booked before held (h.told (.extended n h.bounds.high)) := by
  obtain ⟨a, hb, hhigh⟩ := ho.booked
  have hmore : extensions (h.trace.push (.extended n h.bounds.high)) = extensions h.trace ++
      [(n, h.bounds.high)] := extensions_push _ _
  have hhigh' : Arena.high a = before + ((extensions h.trace).map Prod.fst).sum := hb.high
  rw [Heap.told, if_pos hb.logs]
  refine ⟨hb.logs, ho.sane, ?_, ?_, ?_⟩
  · rw [ledger_push, show ledger h.trace = some held from hb.ledger]
    rfl
  · simp only [hmore, List.map_append, List.sum_append, List.map_cons, List.map_nil,
      List.sum_singleton, ← Nat.add_assoc, ← hhigh']
    exact hhigh
  · intro x hx
    rw [hmore, List.getLast?_concat] at hx
    cases hx
    rfl

end Owing

namespace Booked

/-- The arena grows and an event tells by how much, or it fails. -/
theorem grow (hb : Booked before held h) (words : Nat) :
    Leaves (grow words) h (fun _ => Booked before held) (Booked before held) := by
  unfold Heap.grow
  refine .next (.except fun words => .ite (fun _ => .refused_bind hb) fun _ =>
    .bind hb.claimOrTell fun bp h₁ ho => ?_)
  refine .next (.region (.next (.reading fun prev =>
    .next (.writing fun _ s₁ => .next (.reading fun above => .next (.writing fun _ s₂ => ?_))))))
  exact .next (.log (.store fun b s₃ _ => ((ho.store s₁).store s₂).told.store s₃))

/-- The event of a block tells of a new address. -/
theorem take (hb : Booked before held h) (bp : Nat) {log : Bool} (hlog : log = true) :
    Leaves (take request size bp log) h
      (fun p h' => p ∉ held → Booked before (insert p held) h') R := by
  unfold Heap.take
  refine .next (.region (.next (.store fun _ s _ =>
    .ite (fun _ => .next (.reading fun n => ?_)) fun hoff => absurd hlog hoff)))
  exact .next (.emit (.pure fun hfresh => (hb.store s).push (if_neg hfresh) rfl))

theorem allocateBlock (hb : Booked before held h) (request : Nat) :
    Leaves (allocateBlock request) h (fun p h' => p ∉ held → Booked before (insert p held) h')
      (Booked before held) := by
  unfold Heap.allocateBlock
  cases blockSize request with
  | error e => exact .refused_bind hb
  | ok size =>
    refine .next (.pure (.next (.region (.bind_get (.next (.reading fun found => ?_))))))
    cases found with
    | none => exact .bind (hb.grow _) fun bp h₁ hb₁ => hb₁.take bp hb.logs
    | some bp => exact .next (.pure (hb.take bp hb.logs))

end Booked

end Heap

/-! ## Calls -/

section Calls

open Heap

variable {A : Type} [Arena A] [LawfulArena A] {w w' : World A} {row : List Tile} {idx : Index}
  {before addr request : Nat} {held : Finset Nat} {d : Demand}

/-- Any answer that names no address accounts for the demand. -/
def Heap.Declined (before : Nat) (held : Finset Nat) (d : Demand) (h : Heap A) : Prop :=
  ∀ a : Answer, a.Blank → Booked before (d.account a held) h

/-- What a demand leaves in the books, whatever becomes of it. -/
def Heap.Settles (before : Nat) (held : Finset Nat) (d : Demand) (x : HeapM A (Option Nat))
    (h : Heap A) : Prop :=
  Leaves x h (fun a => Booked before (d.account (.ok a) held)) (Declined before held d)

theorem Heap.Booked.declined {h : Heap A} (hb : Booked before held h)
    (hd : ∀ p ∈ held, d ≠ .drop p) : Declined before held d h :=
  fun _ ha => (Demand.account_blank ha hd).symm ▸ hb

theorem Heap.Declined.ignored {h : Heap A} (hd : Declined before held d h) (op : Operation)
    (addr : Nat) (fault : AddressFault) :
    Declined before held d (h.told (.ignored op addr fault)) := fun a ha => (hd a ha).told rfl rfl

/-- Where a block was reallocated, the event takes out the old address if there is a new one. -/
theorem Heap.Booked.reallocated {h : Heap A} {p : Nat} (hin : addr ∈ held)
    (hfit : p = addr ∧ Booked before held h ∨ p ∉ held ∧ Booked before (insert p held) h)
    (request : Nat) :
    Booked before (insert p (held.erase addr))
      (h.told (.reallocated addr p request (p == addr))) := by
  rcases hfit with ⟨rfl, hb⟩ | ⟨hfresh, hb⟩
  · rw [beq_self_eq_true, Finset.insert_erase hin]
    exact hb.told rfl rfl
  · have hne : p ≠ addr := fun he => hfresh (he ▸ hin)
    rw [beq_false_of_ne hne, ← Finset.erase_insert_of_ne hne]
    exact hb.told (if_pos (Finset.mem_insert_of_mem hin)) rfl

omit [LawfulArena A] in
/-- Of the addresses that a program may name, those that are held are accepted. -/
theorem World.MayName.holds_of_accepted (hp : w.MayName addr) (h0 : addr ≠ 0)
    (hrun : checkAddress addr w.heap = .ok () w.heap) :
    addr ∈ w.holds := by
  rcases hp with hnull | hin | ⟨fault, hr⟩
  · exact absurd hnull h0
  · exact hin
  · rw [hrun] at hr
    cases hr

namespace World.Sound

theorem zero_notMem (hw : w.Sound row idx) : 0 ∉ w.holds := by
  intro hin
  obtain ⟨e, he, h0⟩ := (hw.holds 0).mp hin
  exact live_ne_zero hw.laid he h0

theorem accepts (hw : w.Sound row idx) (hin : addr ∈ w.holds) :
    checkAddress addr w.heap = .ok () w.heap := by
  obtain ⟨e, he, rfl⟩ := (hw.holds addr).mp hin
  exact checkAddress_live hw.laid he

theorem allocateBlock_booked (hw : w.Sound row idx) (hb : Booked before w.holds w.heap)
    (request : Nat) :
    Leaves (allocateBlock request) w.heap
      (fun p h' => p ∉ w.holds ∧ Booked before (insert p w.holds) h') (Booked before w.holds) := by
  have hx := hb.allocateBlock request
  refine ⟨fun {p h'} hrun => ?_, hx.refused⟩
  have hfresh : p ∉ w.holds := by
    intro hin
    obtain ⟨f, hf, hbp⟩ := (hw.holds p).mp hin
    rcases allocateBlock_spec hw.laid request with
      ⟨err, h', hrefused, -⟩ | ⟨e, h', _, _, hok, -, ha⟩
    · rw [hrun] at hrefused
      cases hrefused
    · rw [hrun] at hok
      cases hok
      exact ha.gained.fresh f hf hbp
  exact ⟨hfresh, hx.ok hrun hfresh⟩

theorem allocateBlock_settles (hw : w.Sound row idx) (hb : Booked before w.holds w.heap)
    (request : Nat) {bytes : Nat} {zero : Bool} :
    Leaves (allocateBlock request) w.heap (fun p => Booked before (insert p w.holds))
      (Declined before w.holds (.add bytes zero)) :=
  (hw.allocateBlock_booked hb request).mono (fun _ _ => And.right) fun _ hb' => hb'.declined nofun

theorem tryRelease_booked (hw : w.Sound row idx) (hb : Booked before w.holds w.heap)
    (hp : w.MayName addr) :
    Leaves (Heap.tryRelease addr) w.heap (fun _ => Booked before (w.holds.erase addr))
      (Declined before w.holds (.drop addr)) := by
  unfold Heap.tryRelease
  refine .ite (fun h0 => .pure ?_) fun h0 => ?_
  · rw [h0, Finset.erase_eq_of_notMem hw.zero_notMem]
    exact hb
  refine .next (.looks (looks_checkAddress addr) (fun _ haccept => ?_) fun e hrefused => ?_)
  · have hin := hp.holds_of_accepted h0 haccept
    refine .next (.region
      (.next (.reading fun size => .next (.store fun _ s _ => .next (.log (.checkAfter ?_))))))
    exact (hb.store s).told (if_pos hin) rfl
  · refine hb.declined fun p hin hd => ?_
    cases hd
    rw [hw.accepts hin] at hrefused
    cases hrefused

/-- The block is where it was, or it has a new address and the old one is still to be taken out. -/
theorem fit_booked (hw : w.Sound row idx) (hb : Booked before w.holds w.heap) (r : Region)
    (addr size oldSize request : Nat) :
    Leaves (fit r addr size oldSize request) w.heap
      (fun p h' => p = addr ∧ Booked before w.holds h' ∨
        p ∉ w.holds ∧ Booked before (insert p w.holds) h') (Booked before w.holds) := by
  unfold fit
  refine .ite (fun _ => .next (.store fun _ s _ => .pure (.inl ⟨rfl, hb.store s⟩))) fun _ =>
    .next (.store fun grown s hrun => ?_)
  cases grown with
  | true => exact .pure (.inl ⟨rfl, hb.store s⟩)
  | false =>
    obtain rfl := Store.growInPlace_false hrun
    refine .bind (hw.allocateBlock_booked hb request) fun new h₁ ⟨hfresh, hb₁⟩ =>
      .next (.region (.next (.modifyMemory ?_)))
    exact .next (.store fun _ s _ => .pure (.inr ⟨hfresh, (hb₁.store _).store s⟩))

theorem tryReallocate_booked (hw : w.Sound row idx) (hb : Booked before w.holds w.heap)
    (hp : w.MayName addr) (request : Nat) :
    Settles before w.holds (Call.tryReallocate addr request).demand
      (Heap.tryReallocate addr request) w.heap := by
  by_cases hn : request = 0
  · subst hn
    rw [tryReallocate_zero]
    exact .bind (hw.tryRelease_booked hb hp) fun _ _ hb' => .pure hb'
  by_cases h0 : addr = 0
  · subst h0
    rw [show (Call.tryReallocate 0 request).demand = .add request false from
      (if_neg hn).trans (if_pos rfl)]
    unfold Heap.tryReallocate
    rw [if_neg hn, if_pos rfl]
    exact .bind (hw.allocateBlock_settles hb request) fun bp h' hb' =>
      .next (.checkAfter (.pure hb'))
  · rw [show (Call.tryReallocate addr request).demand = .resize addr request from
      (if_neg hn).trans (if_neg h0), tryReallocate_fit hn h0]
    refine .next (.looks (looks_checkAddress addr) (fun _ haccept => ?_) fun _ _ =>
      hb.declined nofun)
    have hin := hp.holds_of_accepted h0 haccept
    cases blockSize request with
    | error e => exact .refused_bind (hb.declined nofun)
    | ok size =>
      refine .next (.pure (.next (.region (.next (.reading fun oldSize => ?_)))))
      refine .bind ((hw.fit_booked hb _ addr size oldSize request).mono (fun _ _ => id) fun _ hb' =>
        hb'.declined nofun) fun p h' hfit => ?_
      exact .next (.log (.next (.checkAfter (.pure (.reallocated hin hfit request)))))

theorem tryZeroAllocate_booked (hw : w.Sound row idx) (hb : Booked before w.holds w.heap)
    (count elemSize : Nat) :
    Settles before w.holds (.add (count * elemSize) true)
      (Heap.tryZeroAllocate count elemSize) w.heap := by
  unfold Heap.tryZeroAllocate
  refine .ite (fun _ => .next (.log (.refused_bind ((hb.told rfl rfl).declined nofun)))) fun _ =>
    .ite (fun _ => .pure hb) fun _ => ?_
  exact .bind (hw.allocateBlock_settles hb _) fun bp h' hb' =>
    .next (.modifyMemory (.next (.checkAfter (.pure (hb'.store _)))))

/-- Every permitted call leaves the books right. -/
theorem perform_booked (hw : w.Sound row idx) (hb : Booked before w.holds w.heap) {call : Call}
    (hp : w.Permits call) :
    Settles before w.holds call.demand call.perform w.heap := by
  cases call with
  | allocate size =>
    refine .ite (fun _ => .pure hb) fun _ =>
      .bind (hw.allocateBlock_booked hb size).attempt fun judged h' hj => ?_
    cases judged with
    | error e => exact .pure hj
    | ok bp => exact .next (.checkAfter (.pure hj.2))
  | zeroAllocate count elemSize =>
    refine .bind (hw.tryZeroAllocate_booked hb count elemSize).attempt fun judged h' hj => ?_
    cases judged with
    | ok new => exact .pure hj
    | error e => exact .pure (hj _ (.inl rfl))
  | tryZeroAllocate count elemSize => exact hw.tryZeroAllocate_booked hb count elemSize
  | reallocate addr size =>
    refine .bind (hw.tryReallocate_booked hb hp size).attempt fun judged h' hj => ?_
    rcases judged with (⟨addr, fault⟩ | _ | _ | _) | new
    case error.invalidAddress => exact .next (.log (.pure (hj.ignored _ _ _ _ (.inl rfl))))
    case ok => exact .pure hj
    all_goals exact .pure (hj _ (.inl rfl))
  | tryReallocate addr size => exact hw.tryReallocate_booked hb hp size
  | release addr =>
    refine .next (.bind (hw.tryRelease_booked hb hp).attempt fun judged h' hj => ?_)
    rcases judged with (⟨addr, fault⟩ | _ | _ | _) | _
    case error.invalidAddress => exact .log (.pure (hj.ignored _ _ _ _ (.inl rfl)))
    case ok => exact .pure (.pure hj)
    all_goals exact .pure (.pure (hj _ (.inl rfl)))
  | tryRelease addr => exact .bind (hw.tryRelease_booked hb hp) fun _ _ hb' => .pure hb'
  | store addr bytes => exact .next (.modifyMemory (.pure (hb.store _)))

theorem step_booked (hw : w.Sound row idx) (hb : Booked before w.holds w.heap) {call : Call}
    {answer : Answer} (hstep : w.Step call answer w') :
    Booked before w'.holds w'.heap := by
  obtain ⟨hp, hrun⟩ := hstep
  have hsettles := hw.perform_booked hb hp
  cases answer with
  | ok a => exact hsettles.ok (attempt_answer hrun)
  | error e => exact hsettles.refused (attempt_error hrun) _ (.inr ⟨e, rfl⟩)

end World.Sound

end Calls

/-! ## Sessions -/

section Sessions

open Heap

variable {A : Type} [Arena A] [LawfulArena A] {arena : A} {memory : Memory} {config : Config}
  {w : World A} {h : Heap A}

/-- A run in which the heap may also be checked, and its blocks shown, between the calls. -/
inductive Session (arena : A) (memory : Memory) (config : Config) : World A → Prop
  | start {h : Heap A} : Heap.start arena memory config = .ok () h →
      Session arena memory config ⟨h, ∅⟩
  | call {w w' : World A} {call : Call} {answer : Answer} : Session arena memory config w →
      w.Step call answer w' →
      Session arena memory config w'
  | check {w : World A} {verbose : Bool} {verdict : Except Corruption Unit} {h' : Heap A} :
      Session arena memory config w →
      checkHeap verbose w.heap = .ok verdict h' → Session arena memory config ⟨h', w.holds⟩

omit [LawfulArena A] in
theorem Run.session {past : List (Call × Answer)} (hr : Run arena memory config past w) :
    Session arena memory config w := by
  induction hr with
  | start hrun => exact .start hrun
  | step _ hstep ih => exact .call ih hstep

/-- Showing blocks changes nothing but the events, and no account. -/
theorem Heap.Booked.saw {before : Nat} {held : Finset Nat} {R : Heap A → Prop}
    (hb : Booked before held h) (blocks : List Block) :
    Leaves (blocks.forM fun block => emit (saw block)) h
      (fun _ h' => Same h h' ∧ Booked before held h') R := by
  induction blocks generalizing h with
  | nil => exact .pure ⟨.refl h, hb⟩
  | cons block blocks ih =>
    have hsame : Same h { h with trace := h.trace.push (saw block) } := ⟨rfl, rfl, rfl, rfl, id⟩
    have hb' : Booked before held { h with trace := h.trace.push (saw block) } := by
      cases block <;> exact hb.push rfl rfl
    exact .next (.emit ((ih hb').mono (fun _ _ hs => ⟨hsame.trans hs.1, hs.2⟩) fun _ => id))

theorem Heap.Booked.checkHeap {before : Nat} {held : Finset Nat} {R : Heap A → Prop}
    (hb : Booked before held h) (verbose : Bool) :
    Leaves (checkHeap verbose) h (fun _ h' => Same h h' ∧ Booked before held h') R := by
  unfold Heap.checkHeap
  refine .ite (fun _ => .pure ⟨.refl h, hb⟩) fun _ =>
    .bind_get (.next (.region (.bind (hb.saw _) fun _ h' hs => ?_)))
  exact .next (.sees looks_validate .validate fun verdict _ => .pure hs)

/-- A new heap has told of its first chunk. -/
theorem Heap.start_booked (hs : LawfulArena.Sane arena) (hlog : config.logEvents = true)
    (hrun : Heap.start arena memory config = .ok () h) :
    Booked (Arena.high arena + 32) ∅ h := by
  obtain ⟨start, a, b, h₁, hsite, hgrow, hcheck⟩ := start_inv hrun
  obtain ⟨rfl, -, hhigh, -, hsane⟩ := LawfulArena.extend_ok hs hsite.given
  have hb : Booked (Arena.high arena + 32) ∅ ⟨a, ⟨founded memory (Arena.high arena), .empty⟩,
      Arena.high arena + 16, config, #[]⟩ :=
    ⟨hlog, hsane, rfl, hhigh, nofun⟩
  obtain rfl := checkAfter_still hcheck
  exact (hb.grow _).ok hgrow

/-- In a session the heap stays sound, and its books stay right. -/
theorem Session.kept (hs : LawfulArena.Sane arena) (hlog : config.logEvents = true)
    (hw : Session arena memory config w) :
    (∃ row idx, w.Sound row idx) ∧ Booked (Arena.high arena + 32) w.holds w.heap ∧
      ∃ h, Heap.start arena memory config = .ok () h ∧ Later h w.heap := by
  induction hw with
  | @start h hrun =>
    obtain ⟨⟨row, idx, hl, hlive⟩, hc, -⟩ := start_laid hs hrun
    exact ⟨⟨row, idx, hl, hc, fun p => by simp [hlive]⟩, start_booked hs hlog hrun, h,
      hrun, .refl h⟩
  | call _ hstep ih =>
    obtain ⟨⟨row, idx, hsound⟩, hb, h, hrun, hlater⟩ := ih
    obtain ⟨row', idx', hsound', ht⟩ := hsound.step hstep
    exact ⟨⟨row', idx', hsound'⟩, hsound.step_booked hb hstep, h, hrun, hlater.trans ht.later⟩
  | check _ hcheck ih =>
    obtain ⟨⟨row, idx, hsound⟩, hb, h, hrun, hlater⟩ := ih
    obtain ⟨hsame, hb'⟩ := (hb.checkHeap (R := fun _ => True) _).ok hcheck
    exact ⟨⟨row, idx, hsound.laid.same hsame, hsame.checkable hsound.checkable, hsound.holds⟩, hb',
      h, hrun, hlater.trans hsame.later⟩

/-- The events of a heap that logs account for its blocks and for its bytes. At any time in a
    session, no event has added an address that was in use or taken out one that was not; those
    in use by the events are those that the program holds, and those of the allocated blocks.
    What was handed out before the heap was made, four words, and the extensions told make up
    the length of the arena, and the last of these has told where it ends. -/
theorem Session.accounted (hs : LawfulArena.Sane arena) (hlog : config.logEvents = true)
    (hw : Session arena memory config w) :
    ∃ ts q idx, w.heap.WellFormed ts q idx ∧
      (∀ p, p ∈ w.holds ↔ ∃ t ∈ ts, t.tag.alloc = true ∧ t.bp = p) ∧
      ledger w.heap.trace = some w.holds ∧
      Arena.length w.heap.arena = Arena.length arena + 32 +
        ((extensions w.heap.trace).map Prod.fst).sum ∧
      ∃ bytes, (extensions w.heap.trace).getLast? = some (bytes, Arena.high w.heap.arena) := by
  obtain ⟨⟨row, idx, hsound⟩, hb, h, hrun, hlater⟩ := hw.kept hs hlog
  obtain ⟨ts, q, rfl, hwell⟩ := hsound.laid.readOff
  obtain ⟨hlow, hle⟩ := start_low hs hrun
  have hlow' : Arena.low w.heap.arena = Arena.low arena := hlater.low.trans hlow
  have hhigh : Arena.high w.heap.arena = Arena.high arena + 32 +
      ((extensions w.heap.trace).map Prod.fst).sum := hb.high
  refine ⟨ts, q, idx, hwell, fun p => (hsound.holds p).trans hwell.tiles.live_iff,
    hb.ledger, ?_, ?_⟩
  · rw [Arena.length, Arena.length, hlow', hhigh]
    omega
  · -- the first chunk has been told
    have hfirst : extensions w.heap.trace ≠ [] := by
      intro hnone
      obtain ⟨hprologue, hroom, -⟩ := (start_laid hs hrun).2.2
      have hle : h.bounds.high ≤ Arena.high w.heap.arena := hlater.high_le
      rw [Heap.firstBlock, hprologue, doubleWord] at hroom
      simp only [hnone, List.map_nil, List.sum_nil] at hhigh
      omega
    obtain ⟨⟨bytes, high⟩, hlast⟩ := Option.isSome_iff_exists.mp (List.getLast?_isSome.mpr hfirst)
    obtain rfl : high = Arena.high w.heap.arena := hb.last _ hlast
    exact ⟨bytes, hlast⟩

/-- A block that is reallocated in place, and then moves into a grown arena; a request that
    fails; and a look at what there is. -/
theorem Session.accounted_page : ∃ w h, Run page .blank {}
      [(.allocate 56, .ok (some 4128)), (.reallocate 4128 40, .ok (some 4128)),
      (.allocate 24, .ok (some 4192)), (.reallocate 4128 300, .ok (some 4224)),
      (.release 4192, .ok none), (.allocate 9999, .ok none)] w ∧
    w.heap.trace = #[.extended 256 4384, .allocated 56 64 4128, .reallocated 4128 4128 40 true,
      .allocated 24 32 4192, .extended 320 4704,
      .allocated 300 312 4224, .reallocated 4128 4224 300 false, .released 32 4192,
      .cannotGrow 10016] ∧
    Heap.checkHeap true w.heap = .ok (.ok ()) h ∧ ledger h.trace = some {4224} ∧
    Arena.length h.arena = 0 + 32 + ((extensions h.trace).map Prod.fst).sum ∧
    ∃ bytes, (extensions h.trace).getLast? = some (bytes, Arena.high h.arena) := by
  obtain ⟨w, hr, hholds, hlook⟩ := Run.of_trial page .blank {}
      [.allocate 56, .reallocate 4128 40, .allocate 24, .reallocate 4128 300,
    .release 4192, .allocate 9999] [.ok (some 4128), .ok (some 4128), .ok (some 4192),
      .ok (some 4224), .ok none, .ok none]
    (fun h => (h.trace, (Heap.answer? (Heap.checkHeap true) h).map Except.isOk))
      (#[.extended 256 4384, .allocated 56 64 4128,
      .reallocated 4128 4128 40 true, .allocated 24 32 4192, .extended 320 4704,
      .allocated 300 312 4224, .reallocated 4128 4224 300 false,
      .released 32 4192, .cannotGrow 10016], some true) (by decide +kernel) (by decide +kernel)
  obtain ⟨htrace, hcheck⟩ := Prod.mk.inj hlook
  obtain ⟨verdict, hanswer, hok⟩ := Option.map_eq_some_iff.mp hcheck
  obtain ⟨h, hrun⟩ := Heap.answer_some hanswer
  cases verdict with
  | error corruption => cases hok
  | ok _ =>
    obtain ⟨ts, q, idx, -, -, hledger, hlength, hlast⟩ :=
      Session.accounted (A := FixedArena) trivial rfl (.check hr.session hrun)
    rw [hholds] at hledger
    exact ⟨w, h, hr, htrace, hrun, hledger.trans (by decide), hlength, hlast⟩

end Sessions

end BoundaryTag
