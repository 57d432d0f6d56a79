/-
  BoundaryTag.Proofs.Diagnostics — a heap does the same whatever it checks and tells.

  Two of a heap's settings are for diagnosis: whether it is checked after each operation, and
  whether it logs. Heaps that have other settings for these, and are the same otherwise, are in
  accord. A step that ends with a check is compared with the same step of a heap that never
  checks: the two end alike, or the one comes to its check where the other ends. In a heap that
  is laid the check finds nothing.

  Proved: so it is for every call (`Checks.perform`). Two runs with the same calls and
  answers, under settings that differ in these two only, go through heaps in accord, every
  further call has the same answer in both, and corruption is never reported (`Run.neutral`).
  Only where the arena has taken all but the last word of the address space a check has no
  room to look past the end, and overflows.
-/

import BoundaryTag.Proofs.Faultless
import BoundaryTag.Proofs.Twins
import Mathlib.Data.Fintype.EquivFin

namespace BoundaryTag

/-- The chunk hangs on its size only. -/
theorem Config.chunkWords_congr {c d : Config} (h : d.chunkSize = c.chunkSize) :
    d.chunkWords = c.chunkWords := by
  rw [chunkWords, chunkWords, chunkBytes, chunkBytes, h]

/-- The block that was placed has a header that can be read. -/
theorem Store.place_size {r : Region} {bp size : Nat} {s s' : Store}
    (hrun : Store.place r bp size s = .ok () s') (m : Memory) :
    r.size bp m = .ok (Tag.decode (m.word (bp - 8))).size := by
  simp only [Store.place, Store.remove, StoreM.bind_apply, StoreM.lift_reading] at hrun
  rcases hsize : r.size bp s.memory with f | n
  · rw [hsize] at hrun
    cases hrun
  · rcases htag : r.tag bp s.memory with f | tag
    · simp [Region.size, Reading.bind_apply, htag, Except.bind] at hsize
    · obtain ⟨hlow, hhigh, -⟩ := Region.tag_ok.mp htag
      exact Region.size_eq hlow hhigh

namespace Heap

variable {A : Type} {α β : Type} {c d e : Config} {h g k h' k' : Heap A} {spent : Stop}

/-- The heaps have these settings, and are the same otherwise. If both log or neither does,
    they have told the same. -/
structure Accord (c d : Config) (h g : Heap A) : Prop where
  here : h.config = c
  there : g.config = d
  arena : g.arena = h.arena
  store : g.store = h.store
  prologue : g.prologue = h.prologue
  trace : d.logEvents = c.logEvents → g.trace = h.trace

/-- Steps in accord: with the same answers, or stopped for the same reason, which is never
    corruption. -/
def accords (A : Type) (c d : Config) (spent : Stop) : Kinship Stop (Heap A) (Heap A) where
  states := Accord c d
  errors s t := s = t ∧ ∀ op k, s ≠ .corrupted op k
  spent := spent

theorem Accord.told (hh : Accord c d h g) (event : Event) :
    Accord c d (h.told event) (g.told event) := by
  have hkeep : ∀ k : Heap A, (k.told event).config = k.config ∧ (k.told event).arena = k.arena ∧
      (k.told event).store = k.store ∧
      (k.told event).prologue = k.prologue := by
    intro k
    unfold Heap.told
    split <;> exact ⟨rfl, rfl, rfl, rfl⟩
  obtain ⟨hconfig, harena, hstore, hprologue⟩ := hkeep h
  obtain ⟨gconfig, garena, gstore, gprologue⟩ := hkeep g
  refine ⟨hconfig.trans hh.here, gconfig.trans hh.there, by rw [harena, garena, hh.arena],
    by rw [hstore, gstore, hh.store],
    by rw [hprologue, gprologue, hh.prologue], fun hlog => ?_⟩
  unfold Heap.told
  rw [hh.here, hh.there, hlog]
  split
  · exact congrArg (·.push event) (hh.trace hlog)
  · exact hh.trace hlog

theorem Accord.symm (hh : Accord c d h g) : Accord d c g h :=
  ⟨hh.there, hh.here, hh.arena.symm, hh.store.symm, hh.prologue.symm,
    fun hlog => (hh.trace hlog.symm).symm⟩

/-- Two that are in accord with a third. -/
theorem Accord.meet (hk : Accord c e h k) (gk : Accord d e g k) (hlog : e.logEvents = d.logEvents) :
    Accord c d h g := by
  refine ⟨hk.here, gk.here, gk.arena.symm.trans hk.arena, gk.store.symm.trans hk.store,
    gk.prologue.symm.trans hk.prologue, fun hsame => ?_⟩
  rw [← gk.trace hlog]
  exact hk.trace (hlog.trans hsame)

/-! ## Steps in accord -/

instance : Infinite Stop := .of_injective (fun n => .refused (.requestTooLarge n)) fun m n h => by
  cases h; rfl

/-- There is a reason that neither of two steps was stopped for. -/
theorem exists_unspent (u v : EStateM.Result Stop (Heap A) α) :
    ∃ spent, (∀ h, u ≠ .error spent h) ∧ ∀ h, v ≠ .error spent h := by
  have hone : ∀ w : EStateM.Result Stop (Heap A) α, {stop | ∃ h, w = .error stop h}.Finite := by
    intro w
    refine Set.Subsingleton.finite ?_
    rintro s ⟨h, rfl⟩ t ⟨g, hg⟩
    cases hg
    rfl
  obtain ⟨spent, hspent⟩ := ((hone u).union (hone v)).exists_notMem
  exact ⟨spent, fun h hu => hspent (.inl ⟨h, hu⟩), fun h hv => hspent (.inr ⟨h, hv⟩)⟩

/-- What ends in accord whatever counts as spent ends with the same answer, or stopped for the
    same reason. -/
theorem ends_accord {u v : EStateM.Result Stop (Heap A) α}
    (huv : ∀ spent, (accords A c d spent).Ends Eq u v) :
    (∃ a h g, u = .ok a h ∧ v = .ok a g ∧ Accord c d h g) ∨
    ∃ stop h g, u = .error stop h ∧ v = .error stop g ∧ Accord c d h g ∧
      ∀ op k, stop ≠ .corrupted op k := by
  obtain ⟨spent, hu, hv⟩ := exists_unspent u v
  have hends := huv spent
  cases hends with
  | ok heq hh =>
    subst heq
    exact .inl ⟨_, _, _, rfl, rfl, hh⟩
  | error he hh =>
    obtain ⟨rfl, hne⟩ := he
    exact .inr ⟨_, _, _, rfl, rfl, hh, hne⟩
  | here => exact absurd rfl (hu _)
  | there => exact absurd rfl (hv _)

theorem accord_store (x : StoreM α) : (accords A c d spent).Steps Eq (liftM x) (liftM x) := by
  intro h g hh
  rw [HeapM.lift_store, HeapM.lift_store, hh.store]
  rcases x h.store with ⟨a, s⟩ | ⟨fault, s⟩
  · exact .ok rfl ⟨hh.here, hh.there, hh.arena, rfl, hh.prologue, hh.trace⟩
  · exact .error ⟨rfl, fun _ _ hs => by cases hs⟩
      ⟨hh.here, hh.there, hh.arena, rfl, hh.prologue, hh.trace⟩

theorem accord_writing (x : Writing α) : (accords A c d spent).Steps Eq (liftM x) (liftM x) :=
  accord_store (liftM x)

theorem accord_reading (x : Reading α) : (accords A c d spent).Steps Eq (liftM x) (liftM x) :=
  accord_writing (liftM x)

theorem accord_except (x : Except Fault α) :
    (accords A c d spent).Steps Eq (liftM x) (liftM x) := by
  intro h g hh
  rw [HeapM.lift_except, HeapM.lift_except]
  cases x with
  | ok a => exact .ok rfl hh
  | error fault => exact .error ⟨rfl, fun _ _ hs => by cases hs⟩ hh

theorem accord_refuse (err : HeapError) :
    (accords A c d spent).Steps Eq (refuse err : HeapM A α) (refuse err) :=
  .throw ⟨rfl, fun _ _ hs => by cases hs⟩

theorem accord_refused (err : HeapError) (f : α → HeapM A β) :
    (accords A c d spent).Steps Eq (refuse err >>= f) (refuse err >>= f) :=
  .halt ⟨rfl, fun _ _ hs => by cases hs⟩

theorem accord_log (event : Event) : (accords A c d spent).Steps Eq (log event) (log event) := by
  intro h g hh
  rw [log_told, log_told]
  exact .ok rfl (hh.told event)

theorem accord_modifyMemory (f : Memory → Memory) :
    (accords A c d spent).Steps Eq (modifyMemory f) (modifyMemory f) :=
  .modify fun _ _ hh => ⟨hh.here, hh.there, hh.arena, by rw [hh.store], hh.prologue, hh.trace⟩

theorem accord_attempt {x : HeapM A α} (hx : ∀ spent, (accords A c d spent).Steps Eq x x) :
    (accords A c d spent).Steps Eq (attempt x) (attempt x) := by
  intro h g hh
  rcases ends_accord fun spent => hx spent h g hh with
    ⟨a, h', g', hu, hv, hh'⟩ | ⟨stop, h', g', hu, hv, hh', hne⟩
  · rw [attempt_ok hu, attempt_ok hv]
    exact .ok rfl hh'
  cases stop with
  | refused err =>
    rw [attempt_refused hu, attempt_refused hv]
    exact .ok rfl hh'
  | fault fault =>
    rw [attempt, attempt, hu, hv]
    exact .error ⟨rfl, hne⟩ hh'
  | corrupted op k => exact absurd rfl (hne op k)

variable [Arena A]

theorem accord_region : (accords A c d spent).Steps Eq region region := by
  refine .bind_get fun h g hh => ?_
  rw [hh.arena]
  exact accord_except _

theorem accord_claim (bytes : Nat) :
    (accords A c d spent).Steps Eq (claim bytes) (claim bytes) := by
  intro h g hh
  rw [claim, claim, hh.arena]
  rcases Arena.extend bytes h.arena with ⟨start, a⟩ | ⟨err, a⟩
  · exact .ok rfl ⟨hh.here, hh.there, rfl, hh.store, hh.prologue, hh.trace⟩
  · exact .error ⟨rfl, fun _ _ hs => by cases hs⟩
      ⟨hh.here, hh.there, rfl, hh.store, hh.prologue, hh.trace⟩

theorem accord_claimOrTell (bytes : Nat) :
    (accords A c d spent).Steps Eq (claimOrTell bytes) (claimOrTell bytes) := by
  intro h g hh
  rw [claimOrTell_apply, claimOrTell_apply, hh.arena]
  rcases Arena.extend bytes h.arena with ⟨start, a⟩ | ⟨err, a⟩
  · exact .ok rfl ⟨hh.here, hh.there, rfl, hh.store, hh.prologue, hh.trace⟩
  · have hh' : Accord c d { h with arena := a } { g with arena := a } :=
      ⟨hh.here, hh.there, rfl, hh.store, hh.prologue, hh.trace⟩
    exact .error ⟨rfl, fun _ _ hs => by cases hs⟩ (hh'.told _)

theorem accord_grow (words : Nat) : (accords A c d spent).Steps Eq (grow words) (grow words) := by
  unfold grow
  refine .bind_eq (accord_except _) fun words =>
    .ite Iff.rfl (fun _ => accord_refused _ _) fun _ => ?_
  refine .bind_eq (accord_claimOrTell _) fun bp => .bind_eq accord_region fun r =>
    .bind_eq (accord_reading _) fun _ => ?_
  refine .bind_eq (accord_writing _) fun _ => .bind_eq (accord_reading _) fun _ =>
    .bind_eq (accord_writing _) fun _ => ?_
  exact .bind_eq (accord_log _) fun _ => accord_store _

omit [Arena A] in
/-- What a heap that logs tells of the block that it took. -/
theorem take_tells {r : Region} {n : Nat} {log : Bool} (request bp : Nat)
    (hlog : h.config.logEvents = log) (hsize : r.size bp h.store.memory = .ok n) :
    (if log then
      do emit (.allocated request (← r.size bp) bp); return bp else return bp : HeapM A Nat) h =
      .ok bp (h.told (.allocated request n bp)) := by
  subst hlog
  unfold Heap.told
  split
  · simp only [HeapM.bind_apply, HeapM.lift_reading, hsize, emit_apply, HeapM.pure_apply]
  · rfl

/-- The heap that logs reads the new block's header once more, and that cannot fail. -/
theorem accord_take (request size bp : Nat) :
    (accords A c d spent).Steps Eq (take request size bp c.logEvents)
      (take request size bp d.logEvents) := by
  intro h g hh
  refine (accord_region h g hh).bind fun r r' h₁ g₁ _ _ hr hh₁ => ?_
  subst hr
  refine (accord_store (Store.place r bp size) h₁ g₁ hh₁).bind fun _ _ h₂ g₂ hplace _ _ hh₂ => ?_
  have hsize : ∀ m, r.size bp m = .ok (Tag.decode (m.word (bp - 8))).size := by
    rw [HeapM.lift_store] at hplace
    rcases hrun : Store.place r bp size h₁.store with ⟨_, s⟩ | ⟨f, s⟩
    · exact Store.place_size hrun
    · rw [hrun] at hplace
      cases hplace
  have hhere := take_tells request bp (congrArg Config.logEvents hh₂.here) (hsize h₂.store.memory)
  have hthere := take_tells request bp (congrArg Config.logEvents hh₂.there) (hsize g₂.store.memory)
  rw [hhere, hthere, hh₂.store]
  exact .ok rfl (hh₂.told _)

theorem accord_allocateBlock (hchunk : d.chunkSize = c.chunkSize) (request : Nat) :
    (accords A c d spent).Steps Eq (allocateBlock request) (allocateBlock request) := by
  unfold allocateBlock
  rcases blockSize_cases request with hsize | ⟨size, hsize, -⟩
  · simp only [hsize]
    exact accord_refused _ _
  simp only [hsize]
  refine .bind_eq (.pure rfl) fun size => .bind_eq accord_region fun r => .bind_get fun h g hh => ?_
  rw [hh.store, hh.here, hh.there, Config.chunkWords_congr hchunk]
  refine .bind_eq (accord_reading _) fun found => ?_
  cases found with
  | none => exact .bind_eq (accord_grow _) fun bp => accord_take request size bp
  | some bp => exact .bind_eq (.pure rfl) fun bp => accord_take request size bp

theorem accord_checkAddress (addr : Nat) :
    (accords A c d spent).Steps Eq (checkAddress addr) (checkAddress addr) := by
  unfold checkAddress
  refine .bind_eq accord_region fun r => .bind_get fun h g hh =>
    .ite ?_ (fun _ => accord_refused _ _) fun _ => ?_
  · rw [firstBlock, firstBlock, hh.prologue]
  refine .bind_eq (accord_except _) fun _ => .ite Iff.rfl (fun _ => accord_refused _ _) fun _ => ?_
  exact .bind_eq (accord_reading _) fun tag =>
    .ite Iff.rfl (fun _ => accord_refuse _) fun _ => .pure rfl

theorem accord_move (hchunk : d.chunkSize = c.chunkSize) (addr size request : Nat) :
    (accords A c d spent).Steps Eq (move addr size request) (move addr size request) := by
  unfold move
  refine .bind_eq (accord_allocateBlock hchunk request) fun new =>
    .bind_eq accord_region fun r => ?_
  exact .bind_eq (accord_modifyMemory _) fun _ => .bind_eq (accord_store _) fun _ => .pure rfl

/-! ## Steps that end with a check -/

theorem checkAfter_off (hoff : h.config.checkEachOp = false) (op : Operation) :
    checkAfter op h = .ok () h := by
  simp only [checkAfter, HeapM.bind_apply, HeapM.get_apply, hoff]
  rfl

/-- From heaps in accord, of which that with the settings `e` never checks, the step ends in
    accord, or it ends there and comes to a check here, with nothing left to do but to answer. -/
def Checks (c e : Config) (x : HeapM A α) : Prop := ∀ h k, Accord c e h k →
  (∀ spent, (accords A c e spent).Ends Eq (x h) (x k)) ∨
  ∃ op a h' k', Accord c e h' k' ∧ x h = (checkAfter op >>= fun _ => pure a) h' ∧ x k = .ok a k'

namespace Checks

variable {x : HeapM A α} {f : α → HeapM A β}

theorem of_steps (hx : ∀ spent, (accords A c e spent).Steps Eq x x) : Checks c e x :=
  fun h k hh => .inl fun spent => hx spent h k hh

protected theorem pure (a : α) : Checks c e (pure a : HeapM A α) := of_steps fun _ => .pure rfl

protected theorem bind (hx : ∀ spent, (accords A c e spent).Steps Eq x x)
    (hf : ∀ a, Checks c e (f a)) : Checks c e (x >>= f) := by
  intro h k hh
  rw [HeapM.bind_apply x f h, HeapM.bind_apply x f k]
  rcases ends_accord fun spent => hx spent h k hh with
    ⟨a, h₁, k₁, hu, hv, hh₁⟩ | ⟨stop, h₁, k₁, hu, hv, hh₁, hne⟩
  · rw [hu, hv]
    exact hf a h₁ k₁ hh₁
  · rw [hu, hv]
    exact .inl fun _ => .error ⟨rfl, hne⟩ hh₁

theorem bind_get {f : Heap A → HeapM A β} (hcongr : ∀ h k, Accord c e h k → f k = f h)
    (hf : ∀ h, h.config = c → Checks c e (f h)) :
    Checks c e (get >>= f) := by
  intro h k hh
  have hhere : (get >>= f : HeapM A β) h = f h h := rfl
  have hthere : (get >>= f : HeapM A β) k = f h k := by rw [← hcongr h k hh]; rfl
  rw [hhere, hthere]
  exact hf h hh.here h k hh

theorem ite {p : Prop} [Decidable p] {y : HeapM A α} (hx : Checks c e x) (hy : Checks c e y) :
    Checks c e (if p then x else y) := by
  split
  · exact hx
  · exact hy

theorem check (hoff : e.checkEachOp = false) (op : Operation) (a : α) :
    Checks c e (checkAfter op >>= fun _ => pure a : HeapM A α) := by
  intro h k hh
  refine .inr ⟨op, a, h, k, hh, rfl, ?_⟩
  rw [HeapM.bind_apply, checkAfter_off (hh.there ▸ hoff)]
  rfl

/-- What is made of an answer, once the step is done. -/
theorem answer (hx : Checks c e x) (b : α → β) : Checks c e (x >>= fun a => pure (b a)) := by
  intro h k hh
  rcases hx h k hh with hends | ⟨op, a, h', k', hh', hu, hv⟩
  · exact .inl fun spent => (hends spent).bind fun a a' _ _ _ _ ha hh₁ => ha ▸ .ok rfl hh₁
  · refine .inr ⟨op, b a, h', k', hh', ?_, ?_⟩
    · rw [HeapM.bind_apply, hu]
      rw [HeapM.bind_apply, HeapM.bind_apply]
      rcases checkAfter op h' with ⟨_, h₁⟩ | ⟨stop, h₁⟩ <;> rfl
    · rw [HeapM.bind_apply, hv]
      rfl

/-- What is made of an answer or of a refusal. A check refuses nothing. -/
theorem attempted {f : Except HeapError α → HeapM A β} {b : α → β} (hx : Checks c e x)
    (hok : ∀ a, f (.ok a) = pure (b a))
    (herror : ∀ err spent, (accords A c e spent).Steps Eq (f (.error err)) (f (.error err))) :
    Checks c e (Heap.attempt x >>= f) := by
  intro h k hh
  rcases hx h k hh with hends | ⟨op, a, h', k', hh', hu, hv⟩
  · refine .inl fun spent => ?_
    rw [HeapM.bind_apply, HeapM.bind_apply]
    rcases ends_accord hends with ⟨a, h₁, k₁, hu, hv, hh₁⟩ | ⟨stop, h₁, k₁, hu, hv, hh₁, hne⟩
    · rw [attempt_ok hu, attempt_ok hv]
      simp only [hok]
      exact .ok rfl hh₁
    cases stop with
    | refused err =>
      rw [attempt_refused hu, attempt_refused hv]
      exact herror err spent h₁ k₁ hh₁
    | fault fault =>
      rw [Heap.attempt, Heap.attempt, hu, hv]
      exact .error ⟨rfl, hne⟩ hh₁
    | corrupted op k => exact absurd rfl (hne op k)
  · refine .inr ⟨op, b a, h', k', hh', ?_, ?_⟩
    · rw [HeapM.bind_apply, Heap.attempt, hu]
      rw [HeapM.bind_apply, HeapM.bind_apply]
      rcases hrun : checkAfter op h' with ⟨_, h₁⟩ | ⟨stop, h₁⟩
      · simp only [HeapM.pure_apply, hok]
      cases stop with
      | refused err => exact absurd hrun (Unrefusing.checkAfter op h' err h₁)
      | fault | corrupted => rfl
    · rw [HeapM.bind_apply, attempt_ok hv]
      simp only [hok]
      rfl

protected theorem attempt (hx : Checks c e x) : Checks c e (Heap.attempt x) := by
  have hattempt : (Heap.attempt x >>= fun answer => pure answer) = Heap.attempt x := bind_pure _
  rw [← hattempt]
  exact hx.attempted (fun _ => rfl) fun _ _ => .pure rfl

/-! ## Operations -/

variable (hchunk : e.chunkSize = c.chunkSize) (hoff : e.checkEachOp = false)

include hoff

theorem tryRelease (addr : Nat) : Checks c e (Heap.tryRelease addr : HeapM A Unit) := by
  unfold Heap.tryRelease
  refine .ite (.pure ())
    (.bind (fun _ => accord_checkAddress addr) fun _ => .bind (fun _ => accord_region) fun r => ?_)
  refine .bind (fun _ => accord_reading _) fun size => .bind (fun _ => accord_store _) fun _ =>
    .bind (fun _ => accord_log _) fun _ => ?_
  have hcheck : (checkAfter .release >>= fun _ => pure () : HeapM A Unit) = checkAfter .release :=
    bind_pure _
  rw [← hcheck]
  exact .check hoff .release ()

theorem release (addr : Nat) : Checks c e (Heap.release addr : HeapM A Unit) := by
  refine (tryRelease hoff addr).attempted (b := id) (fun _ => rfl) fun err _ => ?_
  cases err with
  | invalidAddress => exact accord_log _
  | _ => exact .pure rfl

include hchunk

theorem allocate (size : Nat) : Checks c e (Heap.allocate size : HeapM A (Option Nat)) := by
  unfold Heap.allocate
  refine .ite (.pure none)
    (.bind (fun _ => accord_attempt fun _ => accord_allocateBlock hchunk size) fun answer => ?_)
  cases answer with
  | error => exact .pure none
  | ok bp => exact .check hoff .allocate (some bp)

theorem tryReallocate (addr request : Nat) :
    Checks c e (Heap.tryReallocate addr request : HeapM A (Option Nat)) := by
  unfold Heap.tryReallocate
  have hlast : ∀ new, Checks c e (do
      Heap.log (.reallocated addr new request (new == addr))
      checkAfter .reallocate
      return some new : HeapM A (Option Nat)) := fun new => .bind (fun _ => accord_log _) fun _ =>
        .check hoff .reallocate (some new)
  refine .ite ((tryRelease hoff addr).answer fun _ => none)
    (.ite ?_ (.bind (fun _ => accord_checkAddress addr) fun _ => ?_))
  · exact .bind (fun _ => accord_allocateBlock hchunk request) fun bp =>
      .check hoff .reallocate (some bp)
  rcases blockSize_cases request with hsize | ⟨size, hsize, -⟩
  · simp only [hsize]
    exact .of_steps fun _ => accord_refused _ _
  simp only [hsize]
  refine .bind (fun _ => .pure rfl) fun size => .bind (fun _ => accord_region) fun r =>
    .bind (fun _ => accord_reading _) fun old => ?_
  refine .ite (.bind (fun _ => accord_store _) fun _ => hlast addr)
    (.bind (fun _ => accord_store _) fun grown => ?_)
  exact .ite (hlast addr) (.bind (fun _ => accord_move hchunk addr old request) hlast)

theorem reallocate (addr request : Nat) :
    Checks c e (Heap.reallocate addr request : HeapM A (Option Nat)) := by
  refine (tryReallocate hchunk hoff addr request).attempted (b := id) (fun _ => rfl) fun err _ => ?_
  cases err with
  | invalidAddress => exact .bind_eq (accord_log _) fun _ => .pure rfl
  | _ => exact .pure rfl

theorem tryZeroAllocate (count elemSize : Nat) :
    Checks c e (Heap.tryZeroAllocate count elemSize : HeapM A (Option Nat)) := by
  unfold Heap.tryZeroAllocate
  refine .ite (.of_steps fun _ => .bind_eq (accord_log _) fun _ => accord_refused _ _)
    (.ite (.pure none) ?_)
  refine .bind (fun _ => accord_allocateBlock hchunk _) fun bp =>
    .bind (fun _ => accord_modifyMemory _) fun _ => ?_
  exact .check hoff .zeroAllocate (some bp)

theorem zeroAllocate (count elemSize : Nat) :
    Checks c e (Heap.zeroAllocate count elemSize : HeapM A (Option Nat)) :=
  (tryZeroAllocate hchunk hoff count elemSize).attempted (b := id) (fun _ => rfl) fun _ _ =>
    .pure rfl

theorem perform (call : Call) : Checks c e (call.perform : HeapM A (Option Nat)) := by
  cases call with
  | allocate size => exact allocate hchunk hoff size
  | zeroAllocate count elemSize => exact zeroAllocate hchunk hoff count elemSize
  | tryZeroAllocate count elemSize => exact tryZeroAllocate hchunk hoff count elemSize
  | reallocate addr size => exact reallocate hchunk hoff addr size
  | tryReallocate addr size => exact tryReallocate hchunk hoff addr size
  | release addr => exact (release hoff addr).answer fun _ => none
  | tryRelease addr => exact (tryRelease hoff addr).answer fun _ => none
  | store addr bytes => exact .of_steps fun _ => .bind_eq (accord_modifyMemory _) fun _ => .pure rfl

theorem setUp : Checks c e (Heap.setUp : HeapM A Unit) := by
  unfold Heap.setUp
  refine .bind (fun _ => accord_claim _) fun start =>
    .bind (fun _ => accord_except _) fun aligned => .ite (.of_steps fun _ => ?_) ?_
  · exact .halt ⟨rfl, fun _ _ hs => by cases hs⟩
  refine .bind (fun _ => .modify fun _ _ hh => ⟨hh.here, hh.there, hh.arena, hh.store, rfl,
    hh.trace⟩) fun _ => .bind (fun _ => accord_region) fun r => ?_
  refine .bind (fun _ => accord_writing _) fun _ => .bind (fun _ => accord_writing _) fun _ => ?_
  refine .bind (fun _ => accord_writing _) fun _ => .bind (fun _ => accord_writing _) fun _ =>
    .bind_get (fun h k hh => ?_) fun h hh => ?_
  · rw [hh.here, hh.there, Config.chunkWords_congr hchunk]
  · refine .bind (fun _ => .discard (accord_grow _)) fun _ => ?_
    have hcheck : (checkAfter .init >>= fun _ => pure () : HeapM A Unit) = checkAfter .init :=
      bind_pure _
    rw [← hcheck]
    exact .check hoff .init ()

end Checks

/-! ## Checks that find nothing -/

theorem accord_usableSize (addr : Nat) :
    (accords A c d spent).Steps Eq (usableSize addr) (usableSize addr) := by
  refine .bind_eq (accord_attempt fun _ => accord_checkAddress addr) fun judged => ?_
  cases judged with
  | error => exact .pure rfl
  | ok => exact .bind_eq accord_region fun r => .bind_eq (accord_reading _) fun _ => .pure rfl

/-- The bounds are the same in accord. -/
theorem Accord.bounds (hh : Accord c d h g) : g.bounds = h.bounds := by rw [Heap.bounds,
      Heap.bounds, hh.arena]

/-- Heaps in accord turn down the same addresses. -/
theorem Accord.rejects (hh : Accord c d h g) {addr : Nat} (hr : h.Rejects addr) :
    g.Rejects addr := by
  obtain ⟨fault, hrun⟩ := hr
  rcases ends_accord fun _ => accord_checkAddress addr h g hh with
    ⟨_, _, _, hu, -⟩ | ⟨_, _, g', hu, hv, -⟩
  · rw [hrun] at hu
    cases hu
  · obtain rfl := (looks_checkAddress addr).error hv
    rw [hrun] at hu
    injection hu with hstop
    exact ⟨fault, hstop ▸ hv⟩

theorem Accord.usableSize (hh : Accord c d h g) {addr n : Nat}
    (hrun : Heap.usableSize addr h = .ok (some n) h) : Heap.usableSize addr g = .ok (some n) g := by
  rcases ends_accord fun _ => accord_usableSize addr h g hh with
    ⟨_, _, g', hu, hv, -⟩ | ⟨_, _, _, hu, -⟩
  · obtain rfl := (looks_usableSize addr).ok hv
    rw [hrun] at hu
    injection hu with hanswer
    exact hanswer ▸ hv
  · rw [hrun] at hu
    cases hu

variable [LawfulArena A] {row : List Tile} {idx : Index}

theorem Accord.laid (hh : Accord c d h g) (hl : Laid g row idx) : Laid h row idx := by
  have hfirst : h.firstBlock = g.firstBlock := by rw [firstBlock, firstBlock, hh.prologue]
  refine ⟨?_, hh.arena ▸ hl.sane, hh.arena ▸ hl.low_aligned, ?_, ?_⟩
  · rw [← hh.bounds, ← hh.store, hfirst]
    exact hl.sound
  · rw [← hh.prologue, ← hh.store]
    exact hl.header
  · rw [← hh.prologue, ← hh.store]
    exact hl.footer

namespace Checks

variable {x : HeapM A α} {a : α}

omit [LawfulArena A] in
/-- What has an answer here has it there, where nothing is checked. -/
theorem done (hx : Checks c e x) (hh : Accord c e h k) (hrun : x h = .ok a h') :
    ∃ k', x k = .ok a k' ∧ Accord c e h' k' := by
  rcases hx h k hh with hends | ⟨op, b, h₁, k₁, hh₁, hu, hv⟩
  · rcases ends_accord hends with ⟨b, h₁, k₁, hu, hv, hh₁⟩ | ⟨stop, h₁, k₁, hu, -⟩
    · rw [hrun] at hu
      cases hu
      exact ⟨k₁, hv, hh₁⟩
    · rw [hrun] at hu
      cases hu
  · rw [hrun] at hu
    obtain ⟨_, h₂, hcheck, hlast⟩ := HeapM.bind_ok.mp hu.symm
    cases hlast
    obtain rfl := checkAfter_still hcheck
    exact ⟨k₁, hv, hh₁⟩

omit [LawfulArena A] in
/-- What is stopped there is stopped here, and not for corruption. -/
theorem stopped {stop : Stop} (hx : Checks c e x) (hh : Accord c e h k)
    (hrun : x k = .error stop k') :
    ∃ h', x h = .error stop h' ∧ Accord c e h' k' ∧
      ∀ op corruption, stop ≠ .corrupted op corruption := by
  rcases hx h k hh with hends | ⟨op, b, h₁, k₁, hh₁, hu, hv⟩
  · rcases ends_accord hends with ⟨b, h₁, k₁, hu, hv, hh₁⟩ | ⟨stop, h₁, k₁, hu, hv, hh₁, hne⟩
    · rw [hrun] at hv
      cases hv
    · rw [hrun] at hv
      cases hv
      exact ⟨h₁, hu, hh₁, hne⟩
  · rw [hrun] at hv
    cases hv

/-- What has an answer there, in a laid heap, has it here, but for the check. -/
theorem answers (hx : Checks c e x) (hh : Accord c e h k) (hrun : x k = .ok a k')
    (hl : Laid k' row idx) (hcheck : ∀ h', x h = .ok a h' → h'.Checkable) :
    ∃ h', Answers x h a h' ∧ Accord c e h' k' := by
  rcases hx h k hh with hends | ⟨op, b, h₁, k₁, hh₁, hu, hv⟩
  · rcases ends_accord hends with ⟨b, h₁, k₁, hu, hv, hh₁⟩ | ⟨stop, h₁, k₁, hu, hv, -⟩
    · rw [hrun] at hv
      cases hv
      exact ⟨h₁, .of_ok hu (hcheck h₁ hu), hh₁⟩
    · rw [hrun] at hv
      cases hv
  · rw [hrun] at hv
    cases hv
    exact ⟨h₁, .checked (hh₁.laid hl) op hu, hh₁⟩

end Checks

/-- The step has one answer, and leaves the two heaps in accord. A heap that is checked may be
    stopped where it then is, if the check has no room to look past its end. -/
def Concur (c d : Config) (x : HeapM A α) (h g : Heap A) : Prop :=
  ∃ a h' g', Answers x h a h' ∧ Answers x g a g' ∧ Accord c d h' g'

omit [LawfulArena A] in
theorem Answers.not_corrupted {x : HeapM A α} {answer : Except HeapError α}
    (hx : Answers (Heap.attempt x) h answer h') (op : Operation) (corruption : Corruption)
    (h'' : Heap A) : x h ≠ .error (.corrupted op corruption) h'' := by
  intro hrun
  have hstop : Heap.attempt x h = .error (.corrupted op corruption) h'' := by
    rw [Heap.attempt, hrun]
  by_cases hc : h'.Checkable
  · rw [hx.run hc] at hstop
    cases hstop
  · rw [hx.halt hc] at hstop
    cases hstop

end Heap

section Runs

open Heap

variable {A : Type} [Arena A] [LawfulArena A] {arena : A} {memory : Memory} {c d e : Config}
  {past : List (Call × Answer)} {w u v : World A}

/-- The worlds differ in the diagnostics of their heaps only. -/
structure World.Accord (c d : Config) (w v : World A) : Prop where
  heap : Heap.Accord c d w.heap v.heap
  holds : v.holds = w.holds

omit [Arena A] [LawfulArena A] in
theorem World.Accord.symm (h : World.Accord c d w v) : World.Accord d c v w :=
  ⟨h.heap.symm, h.holds.symm⟩

omit [LawfulArena A] in
theorem World.Accord.permits (hv : World.Accord c d w v) {call : Call} (hp : w.Permits call) :
    v.Permits call := by
  have hname : ∀ {addr}, w.MayName addr → v.MayName addr := by
    rintro addr (h0 | hin | hr)
    · exact .inl h0
    · exact .inr (.inl (hv.holds ▸ hin))
    · exact .inr (.inr (hv.heap.rejects hr))
  cases call with
  | allocate | zeroAllocate | tryZeroAllocate => trivial
  | reallocate | tryReallocate | release | tryRelease => exact hname hp
  | store addr bytes =>
    obtain ⟨p, hin, n, husable, hroom⟩ := hp
    exact ⟨p, hv.holds ▸ hin, n, hv.heap.usableSize husable, hroom⟩

omit [Arena A] [LawfulArena A] in
theorem accord_unmade (c d : Config) : Heap.Accord c d (unmade arena memory c)
      (unmade arena memory d) := ⟨rfl, rfl, rfl, rfl, rfl, fun _ => rfl⟩

omit [LawfulArena A] in
/-- A run over these calls ends in one world. -/
theorem Run.unique {config : Config} (hr : Run arena memory config past w) :
    ∀ {v}, Run arena memory config past v → v = w := by
  have hinv : ∀ {past v}, Run arena memory config past v →
      past = [] ∧ (∃ h, Heap.start arena memory config = .ok () h ∧ v = ⟨h, ∅⟩) ∨
      ∃ before call answer v', past = before ++ [(call, answer)] ∧
        Run arena memory config before v' ∧ v'.Step call answer v := by
    intro past v hv
    cases hv with
    | start hrun => exact .inl ⟨rfl, _, hrun, rfl⟩
    | step hv hstep => exact .inr ⟨_, _, _, _, rfl, hv, hstep⟩
  induction hr with
  | @start h hrun =>
    intro v hv
    rcases hinv hv with ⟨-, g, hrun', rfl⟩ | ⟨_, _, _, _, hpast, -⟩
    · rw [hrun] at hrun'
      cases hrun'
      rfl
    · simp at hpast
  | @step past w w' call answer _ hstep ih =>
    intro v hv
    rcases hinv hv with ⟨hpast, -⟩ | ⟨before, call', answer', v', hpast, hv', hstep'⟩
    · simp at hpast
    · obtain ⟨rfl, hlast⟩ := List.append_inj' hpast rfl
      cases hlast
      obtain rfl := ih hv'
      obtain ⟨-, hrun⟩ := hstep
      obtain ⟨-, hrun'⟩ := hstep'
      rw [hrun] at hrun'
      cases hrun'
      rfl

/-! ## Runs beside an unchecked one -/

section Unchecked

variable (hchunk : e.chunkSize = c.chunkSize) (hoff : e.checkEachOp = false)

include hchunk hoff

omit [LawfulArena A] in
/-- What a checked heap does, an unchecked one does. -/
theorem Run.unchecked (hr : Run arena memory c past w) :
    ∃ u, Run arena memory e past u ∧ World.Accord c e w u := by
  induction hr with
  | start hrun =>
    obtain ⟨k, hrun', hh⟩ := (Checks.setUp hchunk hoff).done (accord_unmade c e) hrun
    exact ⟨_, .start hrun', hh, rfl⟩
  | @step _ _ _ call answer _ hstep ih =>
    obtain ⟨u, hu, hworld⟩ := ih
    obtain ⟨hp, hrun⟩ := hstep
    obtain ⟨k, hrun', hh⟩ := (Checks.perform hchunk hoff call).attempt.done hworld.heap hrun
    exact ⟨_, .step hu (.mk (hworld.permits hp) hrun'), hh,
      congrArg (call.demand.account answer) hworld.holds⟩

/-- Making the heap has an answer here if it has one there. -/
theorem Heap.setUp_answers (hs : LawfulArena.Sane arena) {k : Heap A}
    (hrun : Heap.start arena memory e = .ok () k) :
    ∃ h, Answers setUp (unmade arena memory c) () h ∧ Heap.Accord c e h k := by
  obtain ⟨⟨row, idx, hl, -⟩, -⟩ := start_laid hs hrun
  exact (Checks.setUp hchunk hoff).answers (accord_unmade c e) hrun hl fun h hrun' =>
    (start_laid hs hrun').2.1

/-- A call has an answer here, and there. -/
theorem World.Sound.perform_accord {row row' : List Tile} {idx idx' : Index} {call : Call}
    (hw : w.Sound row idx) (hu : u.Sound row' idx') (hworld : World.Accord c e w u)
    (hp : w.Permits call) :
    ∃ answer h k, Answers (attempt call.perform) w.heap answer h ∧
      attempt call.perform u.heap = .ok answer k ∧ Heap.Accord c e h k := by
  obtain ⟨answer, k, row₁, idx₁, hanswers, hl, ht⟩ := hu.perform_turn (hworld.permits hp)
  have hrun : attempt call.perform u.heap = .ok answer k := by
    refine hanswers.run fun hcheck => ?_
    rw [ht.later.config, hworld.heap.there, hoff] at hcheck
    cases hcheck
  obtain ⟨h, hhere, hh⟩ :=
    (Checks.perform hchunk hoff call).attempt.answers hworld.heap hrun hl fun h hrun' => by
    obtain ⟨_, _, hw', -⟩ := hw.step (.mk hp hrun')
    exact hw'.checkable
  exact ⟨answer, h, k, hhere, hrun, hh⟩

/-- What an unchecked heap does, a checked one does, as long as the check has room to look past
    the end. -/
theorem Run.checked (hs : LawfulArena.Sane arena) (hr : Run arena memory e past u)
    (hroom : c.checkEachOp = true → u.heap.bounds.high + 8 < wordLimit) :
    ∃ w, Run arena memory c past w ∧ World.Accord c e w u := by
  have hcheckable : ∀ {h k : Heap A}, (c.checkEachOp = true → k.bounds.high + 8 < wordLimit) →
      Heap.Accord c e h k → h.Checkable := by
    intro h k hroom hh hcheck
    rw [← hh.bounds]
    exact hroom (hh.here ▸ hcheck)
  induction hr with
  | start hrun =>
    obtain ⟨h, hanswers, hh⟩ := Heap.setUp_answers hchunk hoff hs hrun
    exact ⟨_, .start (hanswers.run (hcheckable hroom hh)), hh, rfl⟩
  | @step _ _ _ call answer hu hstep ih =>
    obtain ⟨row', idx', hsound'⟩ := hu.sound hs
    obtain ⟨_, _, -, ht⟩ := hsound'.step hstep
    obtain ⟨w, hw, hworld⟩ := ih fun hcheck => by
      have := hroom hcheck
      have := ht.later.high_le
      omega
    obtain ⟨row, idx, hsound⟩ := hw.sound hs
    obtain ⟨hp, hrun⟩ := hstep
    have hp' := hworld.symm.permits hp
    obtain ⟨_, h, k, hanswers, hrun', hh⟩ := hsound.perform_accord hchunk hoff hsound' hworld hp'
    rw [hrun] at hrun'
    cases hrun'
    exact ⟨_, .step hw (.mk hp' (hanswers.run (hcheckable hroom hh))), hh,
      congrArg (call.demand.account answer) hworld.holds⟩

end Unchecked

/-- The heap from now on without checks. -/
def Heap.unchecked (h : Heap A) : Heap A :=
  { h with config := { h.config with checkEachOp := false } }

/-- A call has an answer, which it has without checks as well. -/
theorem World.Sound.perform_unchecked {row : List Tile} {idx : Index} {call : Call}
    (hw : w.Sound row idx) (hp : w.Permits call) :
    ∃ answer h k, Answers (attempt call.perform) w.heap answer h ∧
      attempt call.perform w.heap.unchecked = .ok answer k ∧
      Heap.Accord w.heap.config w.heap.unchecked.config h k := by
  have hl : w.heap.unchecked.Laid row idx :=
    ⟨hw.laid.sound, hw.laid.sane, hw.laid.low_aligned, hw.laid.header, hw.laid.footer⟩
  have hu : World.Sound ⟨w.heap.unchecked, w.holds⟩ row idx := ⟨hl, nofun, hw.holds⟩
  have hworld : World.Accord w.heap.config w.heap.unchecked.config w ⟨w.heap.unchecked, w.holds⟩ :=
    ⟨⟨rfl, rfl, rfl, rfl, rfl, fun _ => rfl⟩, rfl⟩
  have hchunk : w.heap.unchecked.config.chunkSize = w.heap.config.chunkSize := rfl
  exact hw.perform_accord hchunk rfl hu hworld hp

/-- Whether a heap is checked and whether it logs makes no difference to a run: making the heap
    ends alike, and the worlds after the same calls and answers differ in nothing else. Every
    further call is permitted in both or in neither, has the same answer in both, and never
    finds the heap corrupted. A checked run ends only where the arena has taken all but the last
    word of the address space. -/
theorem Run.neutral (hs : LawfulArena.Sane arena) (hchunk : d.chunkSize = c.chunkSize) :
    (Heap.Concur c d Heap.setUp (unmade arena memory c) (unmade arena memory d) ∨
      ∃ stop h g, Heap.start arena memory c = .error stop h ∧
        Heap.start arena memory d = .error stop g ∧ Heap.Accord c d h g ∧
        ∀ op corruption, stop ≠ .corrupted op corruption) ∧
    ∀ past w, Run arena memory c past w →
      ((∃ v, Run arena memory d past v) ∨ d.checkEachOp = true ∧
        wordLimit ≤ w.heap.bounds.high + 8) ∧
      (∀ v, Run arena memory d past v →
        World.Accord c d w v ∧ ∀ call, (w.Permits call ↔ v.Permits call) ∧
        (w.Permits call → Heap.Concur c d (Heap.attempt call.perform) w.heap v.heap)) ∧
      ∀ call, w.Permits call →
        ∀ op corruption h, call.perform w.heap ≠ .error (.corrupted op corruption) h := by
  -- both are compared with a run that is never checked, and logs as the second does
  obtain ⟨e, hd, hoff, hlog⟩ : ∃ e : Config, e.chunkSize = d.chunkSize ∧ e.checkEachOp = false ∧
      e.logEvents = d.logEvents :=
    ⟨{ d with checkEachOp := false }, rfl, rfl, rfl⟩
  have hc : e.chunkSize = c.chunkSize := hd.trans hchunk
  constructor
  · rcases hrun : Heap.start arena memory e with ⟨_, k⟩ | ⟨stop, k⟩
    · obtain ⟨h, hhere, hh⟩ := Heap.setUp_answers hc hoff hs hrun
      obtain ⟨g, hthere, hg⟩ := Heap.setUp_answers hd hoff hs hrun
      exact .inl ⟨(), h, g, hhere, hthere, hh.meet hg hlog⟩
    · obtain ⟨h, hhere, hh, hne⟩ := (Checks.setUp hc hoff).stopped (accord_unmade c e) hrun
      obtain ⟨g, hthere, hg, -⟩ := (Checks.setUp hd hoff).stopped (accord_unmade d e) hrun
      exact .inr ⟨stop, h, g, hhere, hthere, hh.meet hg hlog, hne⟩
  intro past w hw
  obtain ⟨u, hu, hworld⟩ := hw.unchecked hc hoff
  obtain ⟨row, idx, hsound⟩ := hw.sound hs
  obtain ⟨row', idx', hsound'⟩ := hu.sound hs
  refine ⟨?_, ?_, ?_⟩
  · by_cases hroom : d.checkEachOp = true ∧ wordLimit ≤ w.heap.bounds.high + 8
    · exact .inr hroom
    · obtain ⟨v, hv, -⟩ := Run.checked hd hoff hs hu fun hcheck => by
        rw [hworld.heap.bounds]
        exact Nat.not_le.mp fun hlimit => hroom ⟨hcheck, hlimit⟩
      exact .inl ⟨v, hv⟩
  · intro v hv
    obtain ⟨u', hu', hworld'⟩ := hv.unchecked hd hoff
    obtain rfl := hu.unique hu'
    have haccord : World.Accord c d w v := ⟨hworld.heap.meet hworld'.heap hlog,
        hworld'.holds.symm.trans hworld.holds⟩
    refine ⟨haccord, fun call => ⟨⟨haccord.permits, haccord.symm.permits⟩, fun hp => ?_⟩⟩
    obtain ⟨row₂, idx₂, hsound₂⟩ := hv.sound hs
    obtain ⟨answer, h, k, hhere, hrun, hh⟩ := hsound.perform_accord hc hoff hsound' hworld hp
    obtain ⟨_, g, _, hthere, hrun', hg⟩ :=
      hsound₂.perform_accord hd hoff hsound' hworld' (haccord.permits hp)
    rw [hrun] at hrun'
    cases hrun'
    exact ⟨answer, h, g, hhere, hthere, hh.meet hg hlog⟩
  · intro call hp op corruption h
    obtain ⟨_, _, _, hhere, -⟩ := hsound.perform_accord hc hoff hsound' hworld hp
    exact hhere.not_corrupted op corruption h

/-- A heap that logs, and one that is checked instead. -/
theorem Run.neutral_page :
    ∃ w v, Run page .blank {} [(.allocate 56, .ok (some 4128)), (.allocate 9999, .ok none)] w ∧
    Run page .blank { checkEachOp := true, logEvents := false }
      [(.allocate 56, .ok (some 4128)), (.allocate 9999, .ok none)] v ∧
    World.Accord {} { checkEachOp := true, logEvents := false } w v ∧
    w.Permits (.reallocate 4128 300) ∧
    Heap.Concur {} { checkEachOp := true, logEvents := false }
      (Heap.attempt (Call.perform (.reallocate 4128 300))) w.heap v.heap := by
  obtain ⟨w, hw, hholds, hhigh⟩ :=
    Run.of_trial page .blank {} [.allocate 56, .allocate 9999] [.ok (some 4128), .ok none]
    (fun h => h.bounds.high) 4384 (by decide +kernel) (by decide +kernel)
  have hp : w.Permits (.reallocate 4128 300) := .inr (.inl (by rw [hholds]; decide))
  obtain ⟨hv, halike, -⟩ := (Run.neutral (A := FixedArena) (c := {})
      (d := { checkEachOp := true, logEvents := false }) trivial rfl).2 _ w hw
  obtain ⟨v, hv⟩ := hv.resolve_right fun hlimit => absurd hlimit.2 (by rw [hhigh]; decide)
  obtain ⟨haccord, hcalls⟩ := halike v hv
  exact ⟨w, v, hw, hv, haccord, hp, (hcalls _).2 hp⟩

/-- Two heaps that differ in nothing but that one is checked: there the request overflows for
    which there is a block here. -/
theorem Run.checked_overruns :
    ∃ w v h g, Run brink .blank {} [] w ∧ Run brink .blank { checkEachOp := true } [] v ∧
    World.Accord {} { checkEachOp := true } w v ∧
    Heap.allocate 300 w.heap = .ok (some 18446744073709551032) h ∧
    Heap.allocate 300 v.heap = .error (.fault .overflow) g := by
  obtain ⟨w, hw, -, hhere⟩ := Run.of_trial brink .blank {} [] [] (Heap.answer? (Heap.allocate 300))
    (some (some 18446744073709551032)) (by decide +kernel) (by decide +kernel)
  obtain ⟨v, hv, -, hthere⟩ :=
    Run.of_trial brink .blank { checkEachOp := true } [] [] (Heap.stop? (Heap.allocate 300))
    (some (.fault .overflow)) (by decide +kernel) (by decide +kernel)
  obtain ⟨h, hhere⟩ := Heap.answer_some hhere
  obtain ⟨g, hthere⟩ := Heap.stop_some hthere
  obtain ⟨u, hu, haccord⟩ := Run.unchecked (c := { checkEachOp := true }) (e := {}) rfl rfl hv
  obtain rfl := hw.unique hu
  exact ⟨u, v, h, g, hw, hv, haccord.symm, hhere, hthere⟩

end Runs

end BoundaryTag
