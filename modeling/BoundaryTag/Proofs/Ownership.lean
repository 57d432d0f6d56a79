/-
  BoundaryTag.Proofs.Ownership — an arena over a break that others move hands out only its own
  memory.

  The system (the environment): a move of the break answers with the old one and moves it by just
  the distance, or is refused and leaves it; a move up that was just made can be taken back. Its
  addresses are those of a process: none is zero, none is at the very top of the word. Between two
  extensions others move the break as far and as often as they like, in either direction.

  Proved:
  (1) Rounding the break up to a word stays within a word (`align_brk`).
  (2) Every extension (`extend_spec`): one that succeeds starts where the arena ended, which is
      where the break is, and leaves both at the end of the new range. One that fails leaves the
      bounds and the break as they were, except that it may have claimed the break.
  (3) Every history (`extensions_owned`): the ranges handed out lie end to end from an aligned
      low end, which stays the same from the claim on.
  (4) Once the break is claimed, the arena is one that a heap can rely on (`LawfulArena`), and
      before that it is one that a heap can be made over (`settles`).
-/

import BoundaryTag.Arena.Break
import BoundaryTag.Arena.Lawful

namespace BoundaryTag

/-- What is relied on about the system's side of the break. -/
class LawfulBreak (S : Type) [BreakSystem S] where
  Sane : S → Prop
  /-- The null page is never a part of the data segment. -/
  current_pos {s : S} : Sane s → 0 < BreakSystem.current s
  /-- The addresses at the top stand for errors. -/
  current_lt {s : S} : Sane s → BreakSystem.current s + wordSize < wordLimit
  moved {s s' : S} {d : Int} {old : Nat} : Sane s → BreakSystem.shift d s = (some old, s') →
    old = BreakSystem.current s ∧
    (BreakSystem.current s' : Int) = BreakSystem.current s + d ∧ Sane s'
  refused {s s' : S} {d : Int} : Sane s → BreakSystem.shift d s = (none, s') →
    BreakSystem.current s' = BreakSystem.current s ∧ Sane s'
  undone {s s' : S} {d old : Nat} : Sane s → BreakSystem.shift (d : Int) s = (some old, s') →
    ∃ old' s'', BreakSystem.shift (-d : Int) s' = (some old', s'')

namespace ProcessBreak

theorem shift_cases (d : Int) (s : ProcessBreak) :
    ((s.floor : Int) ≤ s.current + d ∧ (s.current : Int) + d ≤ s.ceiling ∧
      BreakSystem.shift d s =
        (some s.current, { s with current := ((s.current : Int) + d).toNat })) ∨
    (¬ ((s.floor : Int) ≤ s.current + d ∧ (s.current : Int) + d ≤ s.ceiling) ∧
      BreakSystem.shift d s = (none, s)) := by
  by_cases h : (s.floor : Int) ≤ s.current + d ∧ (s.current : Int) + d ≤ s.ceiling
  · exact .inl ⟨h.1, h.2, if_pos h⟩
  · exact .inr ⟨h, if_neg h⟩

instance : LawfulBreak ProcessBreak where
  Sane s := 0 < s.floor ∧ s.floor ≤ s.current ∧ s.current ≤ s.ceiling ∧
    s.ceiling + wordSize < wordLimit
  current_pos := by
    intro s h
    exact Nat.lt_of_lt_of_le h.1 h.2.1
  current_lt := by
    intro s h
    exact Nat.lt_of_le_of_lt (Nat.add_le_add_right h.2.2.1 _) h.2.2.2
  moved := by
    intro s s' d old hs h
    rcases shift_cases d s with ⟨hlow, hhigh, hrun⟩ | ⟨-, hrun⟩
    · cases hrun.symm.trans h
      simp only [BreakSystem.current]
      exact ⟨trivial, by omega, hs.1, by omega, by omega, hs.2.2.2⟩
    · cases hrun.symm.trans h
  refused := by
    intro s s' d hs h
    rcases shift_cases d s with ⟨-, -, hrun⟩ | ⟨-, hrun⟩
    · cases hrun.symm.trans h
    · cases hrun.symm.trans h
      exact ⟨rfl, hs⟩
  undone := by
    intro s s' d old hs h
    rcases shift_cases d s with ⟨-, -, hrun⟩ | ⟨-, hrun⟩
    · cases hrun.symm.trans h
      rcases shift_cases (-d : Int) { s with current := ((s.current : Int) + d).toNat } with
        ⟨-, -, hback⟩ | ⟨hno, -⟩
      · exact ⟨_, _, hback⟩
      · simp only at hno
        omega
    · cases hrun.symm.trans h

end ProcessBreak

namespace BreakArena

variable {S : Type} [BreakSystem S]

/-- Where the break is now. -/
abbrev brk (a : BreakArena S) : Nat := BreakSystem.current a.system

/-- What an extension does once the break is claimed. -/
def grant (bytes : Nat) : EStateM ArenaError (BreakArena S) Nat := do
  match ← shift bytes with
  | none => throw (.exhausted bytes 0)
  | some old =>
    let high := (← get).high
    if old ≠ high then
      discard <| shift (-bytes)
      throw (.discontiguous high old)
    modify fun a => { a with high := high + bytes }
    if old = 0 then
      throw (.exhausted bytes 0)
    return old

/-- The arena `ready` is `a` with the break claimed, unless `a` has claimed it before. -/
def Ready (a ready : BreakArena S) : Prop :=
  if a.high = 0 then claim a = .ok () ready ∧ ready.low = ready.high ∧ ready.high = roundUp a.brk
    else ready = a

/-- The range of `bytes` from `start` on is new at the high end, where the break was. -/
structure Handed (a : BreakArena S) (bytes start : Nat) (a' : BreakArena S) : Prop where
  start_eq : ∃ ready, Ready a ready ∧ start = ready.high ∧ start = ready.brk ∧ a'.low = ready.low
  start_pos : 0 < start
  high_eq : a'.high = start + bytes
  brk_eq : a'.brk = start + bytes

/-- Both bounds and the break are where they were. -/
structure Kept (a a' : BreakArena S) : Prop where
  low_eq : a'.low = a.low
  high_eq : a'.high = a.high
  brk_eq : a'.brk = a.brk

/-- The break was claimed, rounded up to a word, and nothing was handed out. -/
structure OnlyClaimed (a a' : BreakArena S) : Prop where
  unclaimed : a.high = 0
  low_eq : a'.low = a'.high
  high_eq : a'.high = roundUp a.brk
  brk_eq : a'.brk = a'.high

/-! ## The steps of an extension -/

omit [BreakSystem S] in
theorem bind_apply {α β : Type} (x : EStateM ArenaError (BreakArena S) α)
    (f : α → EStateM ArenaError (BreakArena S) β) (a : BreakArena S) :
    (x >>= f) a = match x a with
      | .ok b a' => f b a'
      | .error e a' => .error e a' := by
  cases hx : x a <;> simp only [bind, EStateM.bind, hx]

omit [BreakSystem S] in
theorem get_apply (a : BreakArena S) :
    (get : EStateM ArenaError (BreakArena S) (BreakArena S)) a = .ok a a := rfl

theorem extend_tooLarge {bytes : Nat} (h : signedMax < bytes) (a : BreakArena S) :
    extend bytes a = .error (.tooLarge bytes) a := by
  simp only [extend, if_pos h]
  rfl

theorem extend_claimed {bytes : Nat} {a : BreakArena S} (h : bytes ≤ signedMax)
    (hhigh : a.high ≠ 0) :
    extend bytes a = grant bytes a := by
  simp only [extend, if_neg (Nat.not_lt.mpr h), bind_apply, get_apply, if_neg hhigh]
  rfl

theorem extend_unclaimed {bytes : Nat} {a : BreakArena S} (h : bytes ≤ signedMax)
    (hhigh : a.high = 0) :
    extend bytes a = (claim >>= fun _ => grant bytes) a := by
  simp only [extend, if_neg (Nat.not_lt.mpr h), bind_apply, get_apply, if_pos hhigh]
  rfl

theorem claim_aligned {a : BreakArena S} (h : roundUp a.brk = a.brk) :
    claim a = .ok () ⟨a.brk, a.brk, a.system⟩ := by
  simp only [claim, bind_apply, get_apply, h, Nat.sub_self, Nat.lt_irrefl, if_false]
  rfl

theorem claim_refused {a : BreakArena S} {system : S} (h : a.brk < roundUp a.brk)
    (hrun : BreakSystem.shift (roundUp a.brk - a.brk : Nat) a.system = (none, system)) :
    claim a = .error (.exhausted (roundUp a.brk - a.brk) 0) { a with system } := by
  simp only [claim, bind_apply, get_apply, if_pos (Nat.sub_pos_of_lt h), shift, hrun]
  rfl

theorem claim_moved {a : BreakArena S} {old : Nat} {system : S} (h : a.brk < roundUp a.brk)
    (hrun : BreakSystem.shift (roundUp a.brk - a.brk : Nat) a.system = (some old, system)) :
    claim a = .ok () ⟨roundUp a.brk, roundUp a.brk, system⟩ := by
  simp only [claim, bind_apply, get_apply, if_pos (Nat.sub_pos_of_lt h), shift, hrun,
    Nat.add_sub_cancel' (Nat.le_of_lt h)]
  rfl

theorem grant_refused {bytes : Nat} {a : BreakArena S} {system : S}
    (hrun : BreakSystem.shift bytes a.system = (none, system)) :
    grant bytes a = .error (.exhausted bytes 0) { a with system } := by
  simp only [grant, bind_apply, shift, hrun]
  rfl

theorem grant_elsewhere {bytes old : Nat} {a : BreakArena S} {system : S}
    (hrun : BreakSystem.shift bytes a.system = (some old, system)) (hold : old ≠ a.high) :
    grant bytes a = .error (.discontiguous a.high old)
      { a with system := (BreakSystem.shift (-bytes) system).2 } := by
  simp only [grant, bind_apply, get_apply, shift, hrun, if_pos hold]
  rfl

theorem grant_moved {bytes : Nat} {a : BreakArena S} {system : S}
    (hrun : BreakSystem.shift bytes a.system = (some a.high, system)) (hpos : a.high ≠ 0) :
    grant bytes a = .ok a.high ⟨a.low, a.high + bytes, system⟩ := by
  simp only [grant, bind_apply, get_apply, shift, hrun, if_neg (not_not_intro rfl), if_neg hpos]
  rfl

variable [LawfulBreak S]

/-- Rounding the break up with the mask arithmetic of `align` does not overflow, and is what a
    claim does. -/
theorem align_brk {a : BreakArena S} (hs : LawfulBreak.Sane a.system) :
    align a.brk = .ok (roundUp a.brk) :=
  align_eq (LawfulBreak.current_lt hs)

theorem claim_spec {a : BreakArena S} (hs : LawfulBreak.Sane a.system) :
    (∃ ready, claim a = .ok () ready ∧ ready.low = ready.high ∧ ready.high = roundUp a.brk ∧
      ready.brk = ready.high ∧ LawfulBreak.Sane ready.system) ∨
    (∃ e a', claim a = .error e a' ∧ Kept a a' ∧ LawfulBreak.Sane a'.system) := by
  have hle : a.brk ≤ roundUp a.brk := by simp only [roundUp]; omega
  rcases Nat.lt_or_eq_of_le hle with hlt | heq
  · rcases hrun : BreakSystem.shift (roundUp a.brk - a.brk : Nat) a.system with ⟨_ | old, system⟩
    · obtain ⟨hbrk, hs'⟩ := LawfulBreak.refused hs hrun
      exact .inr ⟨_, _, claim_refused hlt hrun, ⟨rfl, rfl, hbrk⟩, hs'⟩
    · obtain ⟨-, hbrk, hs'⟩ := LawfulBreak.moved hs hrun
      have hat : BreakSystem.current system = roundUp a.brk := by
        simp only [brk] at hlt hbrk ⊢
        omega
      exact .inl ⟨_, claim_moved hlt hrun, rfl, rfl, hat, hs'⟩
  · exact .inl ⟨_, claim_aligned heq.symm, rfl, heq, rfl, hs⟩

theorem grant_spec {a : BreakArena S} (hs : LawfulBreak.Sane a.system) (bytes : Nat) :
    (∃ a', grant bytes a = .ok a.high a' ∧ a.high = a.brk ∧ a'.low = a.low ∧
      a'.high = a.high + bytes ∧
      a'.brk = a.high + bytes ∧ LawfulBreak.Sane a'.system) ∨
    (∃ e a', grant bytes a = .error e a' ∧ Kept a a' ∧ LawfulBreak.Sane a'.system) := by
  rcases hrun : BreakSystem.shift bytes a.system with ⟨_ | old, system⟩
  · obtain ⟨hbrk, hs'⟩ := LawfulBreak.refused hs hrun
    exact .inr ⟨_, _, grant_refused hrun, ⟨rfl, rfl, hbrk⟩, hs'⟩
  · obtain ⟨hold, hbrk, hs'⟩ := LawfulBreak.moved hs hrun
    have hpos := LawfulBreak.current_pos hs
    by_cases hat : old = a.high
    · have hnew : BreakSystem.current system = a.high + bytes := by omega
      rw [hat] at hrun
      exact .inl ⟨_, grant_moved hrun (by omega), hat.symm.trans hold, rfl, rfl, hnew, hs'⟩
    · -- others have moved the break, so the arena takes its own move back
      obtain ⟨old', system', hback⟩ := LawfulBreak.undone hs hrun
      obtain ⟨-, hundo, hs''⟩ := LawfulBreak.moved hs' hback
      have hbrk' : BreakSystem.current system' = BreakSystem.current a.system := by omega
      have hgrant := grant_elsewhere hrun hat
      rw [hback] at hgrant
      exact .inr ⟨_, _, hgrant, ⟨rfl, rfl, hbrk'⟩, hs''⟩

theorem extend_spec {a : BreakArena S} (hs : LawfulBreak.Sane a.system) (bytes : Nat) :
    (∃ start a', extend bytes a = .ok start a' ∧ Handed a bytes start a' ∧
      LawfulBreak.Sane a'.system) ∨
    (∃ e a', extend bytes a = .error e a' ∧ (Kept a a' ∨ OnlyClaimed a a') ∧
      LawfulBreak.Sane a'.system) := by
  rcases Nat.lt_or_ge signedMax bytes with hbytes | hbytes
  · exact .inr ⟨_, _, extend_tooLarge hbytes a, .inl ⟨rfl, rfl, rfl⟩, hs⟩
  by_cases hhigh : a.high = 0
  · rw [extend_unclaimed hbytes hhigh]
    rcases claim_spec hs with ⟨ready, hclaim, hlow, hround, hbrk, hs'⟩ | ⟨e, a', hclaim, hkept, hs'⟩
    · simp only [bind_apply, hclaim]
      have hpos := LawfulBreak.current_pos hs'
      rcases grant_spec hs' bytes with ⟨a', hrun, hat, hlow', hhigh', hbrk', hs''⟩ |
        ⟨e, a', hrun, hkept, hs''⟩
      · have hready : Ready a ready := by
          rw [Ready, if_pos hhigh]
          exact ⟨hclaim, hlow, hround⟩
        exact .inl ⟨_, a', hrun,
          ⟨⟨ready, hready, rfl, hat, hlow'⟩, hat ▸ hpos, hhigh', hbrk'⟩, hs''⟩
      · refine .inr ⟨e, a', hrun, .inr ⟨hhigh, ?_, ?_, ?_⟩, hs''⟩
        · rw [hkept.low_eq, hkept.high_eq, hlow]
        · rw [hkept.high_eq, hround]
        · rw [hkept.brk_eq, hkept.high_eq, hbrk]
    · simp only [bind_apply, hclaim]
      exact .inr ⟨e, a', rfl, .inl hkept, hs'⟩
  · rw [extend_claimed hbytes hhigh]
    have hpos := LawfulBreak.current_pos hs
    rcases grant_spec hs bytes with ⟨a', hrun, hat, hlow, hhigh', hbrk, hs'⟩ |
      ⟨e, a', hrun, hkept, hs'⟩
    · have hready : Ready a a := by rw [Ready, if_neg hhigh]
      exact .inl ⟨_, a', hrun, ⟨⟨a, hready, rfl, hat, hlow⟩, hat ▸ hpos, hhigh', hbrk⟩, hs'⟩
    · exact .inr ⟨e, a', hrun, .inl hkept, hs'⟩

/-- Before the claim the low end is not yet where it will stay. -/
instance : LawfulArena (BreakArena S) where
  Sane a := a.high ≠ 0 ∧ LawfulBreak.Sane a.system
  extend_ok := by
    intro a a' bytes start hs hrun
    rcases extend_spec hs.2 bytes with ⟨start', a'', hrun', hnew, hs'⟩ | ⟨e, a'', hrun', -⟩
    · cases hrun.symm.trans hrun'
      obtain ⟨ready, hready, hstart, -, hlow⟩ := hnew.start_eq
      rw [Ready, if_neg hs.1] at hready
      subst hready
      have hpos := hs.1
      have hlt := LawfulBreak.current_lt hs'
      have hhigh := hnew.high_eq
      have hbrk := hnew.brk_eq
      simp only [Arena.high, Arena.low, brk, wordSize] at hlt hbrk ⊢
      exact ⟨hstart, hlow, by omega, by omega, by omega, hs'⟩
    · cases hrun.symm.trans hrun'
  extend_error := by
    intro a a' bytes e hs hrun
    rcases extend_spec hs.2 bytes with
      ⟨start, a'', hrun', -⟩ | ⟨e', a'', hrun', hkept | hclaimed, hs'⟩
    · cases hrun.symm.trans hrun'
    · cases hrun.symm.trans hrun'
      exact ⟨hkept.low_eq, hkept.high_eq, hkept.high_eq ▸ hs.1, hs'⟩
    · exact absurd hclaimed.unclaimed hs.1

/-- A heap may be made over the arena, whether or not the break is claimed yet. -/
theorem settles {a : BreakArena S} (hs : LawfulBreak.Sane a.system) : LawfulArena.Settles a := by
  intro bytes start a' hrun
  rcases extend_spec hs bytes with ⟨start', a'', hrun', hnew, hs'⟩ | ⟨e, a'', hrun', -⟩
  · cases hrun.symm.trans hrun'
    have hpos := hnew.start_pos
    have hhigh := hnew.high_eq
    have hbrk := hnew.brk_eq
    have hlt := LawfulBreak.current_lt hs'
    simp only [Arena.high, brk, wordSize] at hlt hbrk ⊢
    exact ⟨hhigh, by omega, by omega, hs'⟩
  · cases hrun.symm.trans hrun'

/-! ## Histories -/

/-- What happens to the break: the arena is extended, or others move it. -/
inductive Move where
  | extend (bytes : Nat)
  | others (distance : Int)

/-- The arena, and the start and bytes of each range that it has handed out, the first one first. -/
structure History (S : Type) where
  arena : BreakArena S
  handed : List (Nat × Nat)

/-- From `low` to `high`, each range starts where the one before it ends. -/
def Consecutive : Nat → List (Nat × Nat) → Nat → Prop
  | low, [], high => low = high
  | low, (start, bytes) :: ranges, high => start = low ∧ Consecutive (start + bytes) ranges high

theorem Consecutive.push {ranges : List (Nat × Nat)} {low high : Nat}
    (h : Consecutive low ranges high) (bytes : Nat) :
    Consecutive low (ranges ++ [(high, bytes)]) (high + bytes) := by
  induction ranges generalizing low with
  | nil => exact ⟨h.symm, rfl⟩
  | cons range ranges ih => exact ⟨h.1, ih h.2⟩

namespace History

/-- Nothing is claimed yet. -/
def start (system : S) : History S := ⟨unclaimed system, []⟩

def step (h : History S) : Move → History S
  | .extend bytes =>
    match BreakArena.extend bytes h.arena with
    | .ok start a => ⟨a, h.handed ++ [(start, bytes)]⟩
    | .error _ a => { h with arena := a }
  | .others d => { h with arena.system := (BreakSystem.shift d h.arena.system).2 }

def run (h : History S) (moves : List Move) : History S := moves.foldl step h

structure Owned (h : History S) : Prop where
  sane : LawfulBreak.Sane h.arena.system
  aligned : h.arena.low % wordSize = 0
  consecutive : Consecutive h.arena.low h.handed h.arena.high
  unclaimed : h.arena.high = 0 → h.arena.low = 0 ∧ h.handed = []

/-- Once claimed, the low end has its place. -/
structure Stays (h h' : History S) : Prop where
  low_eq : h.arena.high ≠ 0 → h'.arena.low = h.arena.low
  claimed : h.arena.high ≠ 0 → h'.arena.high ≠ 0

variable {h : History S}

theorem Owned.start {s : S} (hs : LawfulBreak.Sane s) : Owned (start s) :=
  ⟨hs, rfl, rfl, fun _ => ⟨rfl, rfl⟩⟩

theorem Owned.handed {a : BreakArena S} {bytes start : Nat} (hown : Owned h)
    (hs : LawfulBreak.Sane a.system) (hnew : Handed h.arena bytes start a) :
    Owned ⟨a, h.handed ++ [(start, bytes)]⟩ ∧ Stays h ⟨a, h.handed ++ [(start, bytes)]⟩ := by
  obtain ⟨ready, hready, hstart, hat, hlow⟩ := hnew.start_eq
  have hhigh := hnew.high_eq
  have hpos := hnew.start_pos
  by_cases h0 : h.arena.high = 0
  · rw [Ready, if_pos h0] at hready
    obtain ⟨-, hbounds, hround⟩ := hready
    have hlow' : a.low = start := by omega
    refine ⟨⟨hs, ?_, ?_, fun h0' => ?_⟩, fun hne => absurd h0 hne, fun hne => absurd h0 hne⟩
    · simp only [hlow', hstart, hround, roundUp, wordSize]
      omega
    · simp only [(hown.unclaimed h0).2, hlow', hhigh, List.nil_append]
      exact ⟨rfl, rfl⟩
    · simp only at h0'
      omega
  · rw [Ready, if_neg h0] at hready
    subst hready
    refine ⟨⟨hs, ?_, ?_, fun h0' => ?_⟩, fun _ => hlow, fun _ => ?_⟩
    · exact hlow ▸ hown.aligned
    · simp only [hlow, hhigh, hstart]
      exact hown.consecutive.push bytes
    · simp only at h0'
      omega
    · simp only
      omega

/-- A failed extension hands out nothing, and is no worse than a claim. -/
theorem Owned.failed {a : BreakArena S} (hown : Owned h) (hs : LawfulBreak.Sane a.system)
    (hold : Kept h.arena a ∨ OnlyClaimed h.arena a) :
    Owned { h with arena := a } ∧ Stays h { h with arena := a } := by
  rcases hold with hkept | hclaimed
  · have hlow := hkept.low_eq
    have hhigh := hkept.high_eq
    refine ⟨⟨hs, ?_, ?_, ?_⟩, fun _ => hlow, ?_⟩
    · exact hlow ▸ hown.aligned
    · exact hlow ▸ hhigh ▸ hown.consecutive
    · exact hlow ▸ hhigh ▸ hown.unclaimed
    · exact hhigh ▸ id
  · have hlow := hclaimed.low_eq
    have hround := hclaimed.high_eq
    have hat := hclaimed.brk_eq
    have hpos := LawfulBreak.current_pos hs
    have hnone := (hown.unclaimed hclaimed.unclaimed).2
    refine ⟨⟨hs, ?_, ?_, fun h0 => ?_⟩, fun hne => absurd hclaimed.unclaimed hne,
      fun hne => absurd hclaimed.unclaimed hne⟩
    · simp only [hlow, hround, roundUp, wordSize]
      omega
    · simp only [hnone]
      exact hlow
    · simp only [brk] at h0 hat
      omega

theorem Owned.step (hown : Owned h) (move : Move) :
    Owned (h.step move) ∧ Stays h (h.step move) := by
  cases move with
  | extend bytes =>
    rcases extend_spec hown.sane bytes with ⟨start, a, hrun, hnew, hs⟩ | ⟨e, a, hrun, hold, hs⟩
    · simp only [History.step, hrun]
      exact hown.handed hs hnew
    · simp only [History.step, hrun]
      exact hown.failed hs hold
  | others d =>
    refine ⟨⟨?_, hown.aligned, hown.consecutive, hown.unclaimed⟩, fun _ => rfl, id⟩
    rcases hrun : BreakSystem.shift d h.arena.system with ⟨_ | old, system⟩
    · simp only [History.step, hrun]
      exact (LawfulBreak.refused hown.sane hrun).2
    · simp only [History.step, hrun]
      exact (LawfulBreak.moved hown.sane hrun).2.2

theorem Owned.run (hown : Owned h) (moves : List Move) :
    Owned (h.run moves) ∧ Stays h (h.run moves) := by
  induction moves generalizing h with
  | nil => exact ⟨hown, fun _ => rfl, id⟩
  | cons move moves ih =>
    obtain ⟨hown', hstays⟩ := hown.step move
    obtain ⟨hown'', hstays'⟩ := ih hown'
    refine ⟨hown'', fun hne => ?_, fun hne => hstays'.claimed (hstays.claimed hne)⟩
    exact (hstays'.low_eq (hstays.claimed hne)).trans (hstays.low_eq hne)

end History

/-- However extensions and moves of others follow one another: what was handed out lies end to
    end from an aligned low end, which does not change once there is one; and the next
    extension hands out what is new at the high end, where the break is, or fails and has at
    most claimed the break. -/
theorem extensions_owned {s : S} (hs : LawfulBreak.Sane s) (moves : List Move) :
    let h := (History.start s).run moves
    Consecutive h.arena.low h.handed h.arena.high ∧ h.arena.low % wordSize = 0 ∧
      (h.arena.high = 0 → h.arena.low = 0 ∧ h.handed = []) ∧
      (h.arena.high ≠ 0 → ∀ later, (h.run later).arena.low = h.arena.low) ∧
      ∀ bytes, match extend bytes h.arena with
        | .ok start a => Handed h.arena bytes start a
        | .error _ a => Kept h.arena a ∨ OnlyClaimed h.arena a := by
  intro h
  have hown : h.Owned := ((History.Owned.start hs).run moves).1
  refine ⟨hown.consecutive, hown.aligned, hown.unclaimed,
    fun hne later => (hown.run later).2.low_eq hne, fun bytes => ?_⟩
  rcases extend_spec hown.sane bytes with ⟨start, a, hrun, hnew, -⟩ | ⟨e, a, hrun, hold, -⟩
  · simp only [hrun]
    exact hnew
  · simp only [hrun]
    exact hold

/-- Others move the break away, where an extension is taken back, and then to where it was. -/
theorem extensions_owned_process :
    let h := (History.start (⟨4096, 8192, 4099⟩ : ProcessBreak)).run
      [.extend 64, .others 16, .extend 8, .others (-16), .extend 0, .extend 9223372036854775808]
    LawfulBreak.Sane (⟨4096, 8192, 4099⟩ : ProcessBreak) ∧ h.handed = [(4104, 64), (4168, 0)] ∧
      Consecutive h.arena.low h.handed h.arena.high ∧ h.arena.high = 4168 := by
  have hs : LawfulBreak.Sane (⟨4096, 8192, 4099⟩ : ProcessBreak) := by
    simp only [LawfulBreak.Sane]
    decide
  exact ⟨hs, by decide, (extensions_owned hs _).1, by decide⟩

end BreakArena

end BoundaryTag
