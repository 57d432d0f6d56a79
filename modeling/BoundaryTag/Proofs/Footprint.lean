/-
  BoundaryTag.Proofs.Footprint — which bytes a step looks at, and which it changes.

  A step is `Within` a window when it runs the same over any two memories that agree there,
  leaves them in agreement, and changes no byte outside. What runs within its window neither
  reads nor writes elsewhere.

  The codec stays within any window that holds the words it is told to use. For the steps that
  find their own way, along tags and links, the window is the space of the blocks: it starts two
  words below the first one, and all that tags and links of a row lead to lies above that.

  Proved: filing, merging, splitting and freeing stay within the space of the blocks
  (`Filed.coalesce_within`, `Sound.place_within`, `Sound.growInPlace_within`, `Sound.free_within`).
-/

import BoundaryTag.Proofs.Blocks

namespace BoundaryTag

/-! ## Windows -/

namespace Memory

/-- The same bytes from `lo` up to `hi`. -/
def Agree (lo hi : Nat) (m m' : Memory) : Prop := ∀ x, lo ≤ x → x < hi → m'.byte x = m.byte x

/-- The same bytes everywhere but there. -/
def AgreeOff (lo hi : Nat) (m m' : Memory) : Prop := ∀ x, x < lo ∨ hi ≤ x → m'.byte x = m.byte x

variable {lo hi a : Nat} {m m' m'' : Memory}

theorem Agree.refl (lo hi : Nat) (m : Memory) : Agree lo hi m m := fun _ _ _ => rfl

theorem AgreeOff.refl (lo hi : Nat) (m : Memory) : AgreeOff lo hi m m := fun _ _ => rfl

theorem AgreeOff.trans (h : AgreeOff lo hi m m') (h' : AgreeOff lo hi m' m'') :
    AgreeOff lo hi m m'' :=
  fun x hx => (h' x hx).trans (h x hx)

theorem Agree.word (h : Agree lo hi m m') (h₁ : lo ≤ a) (h₂ : a + 8 ≤ hi) : m'.word a = m.word a :=
  word_congr fun x hx₁ hx₂ => h x (by omega) (by omega)

/-- The same word is stored in both. -/
theorem Agree.setWord (h : Agree lo hi m m') (a w : Nat) :
    Agree lo hi (m.setWord a w) (m'.setWord a w) := by
  intro x h₁ h₂
  rw [byte_setWord, byte_setWord, h x h₁ h₂]

theorem agreeOff_setWord (h₁ : lo ≤ a) (h₂ : a + 8 ≤ hi) (m : Memory) (w : Nat) :
    AgreeOff lo hi m (m.setWord a w) :=
  fun _ hx => byte_setWord_apart m w (by omega)

end Memory

/-- A state with a memory, and the end of the bytes that it has taken of it, if it takes any
    itself. -/
class Backed (σ : Type) where
  memory : σ → Memory
  top : σ → Nat
  /-- The state with another memory. -/
  upon : σ → Memory → σ
  memory_upon : ∀ s m, memory (upon s m) = m
  upon_upon : ∀ s m m', upon (upon s m) m' = upon s m'
  upon_memory : ∀ s, upon s (memory s) = s

open Backed

instance : Backed Memory where
  memory := id
  top _ := 0
  upon _ m := m
  memory_upon _ _ := rfl
  upon_upon _ _ _ := rfl
  upon_memory _ := rfl

instance : Backed Store where
  memory := Store.memory
  top _ := 0
  upon s m := { s with memory := m }
  memory_upon _ _ := rfl
  upon_upon _ _ _ := rfl
  upon_memory _ := rfl

section Steps

variable {σ ε α β : Type}

/-- The state that a step ends in, whether it has an answer or not. -/
def final : EStateM.Result ε σ α → σ
  | .ok _ s | .error _ s => s

theorem bind_run (x : EStateM ε σ α) (f : α → EStateM ε σ β) (s : σ) : (x >>= f) s = match x s with
    | .ok a s₁ => f a s₁
    | .error e s₁ => .error e s₁ := by
  cases h : x s <;> simp only [Bind.bind, EStateM.bind, h]

theorem discard_run (x : EStateM ε σ α) (s : σ) :
    (Functor.discard x : EStateM ε σ Unit) s = match x s with
    | .ok _ s₁ => .ok () s₁
    | .error e s₁ => .error e s₁ := by
  cases h : x s <;> simp only [Functor.discard, Functor.mapConst, Function.comp, EStateM.map, h,
    Function.const]

variable [Backed σ]

/-- The same outcome with another memory. -/
def replaced (m : Memory) : EStateM.Result ε σ α → EStateM.Result ε σ α
  | .ok a s => .ok a (upon s m)
  | .error e s => .error e (upon s m)

/-- From `s` on, the step looks at no byte outside the window and changes none. The window is to
    hold all that the state has taken when the step ends. -/
structure Within (lo hi : Nat) (x : EStateM ε σ α) (s : σ) : Prop where
  rises : top s ≤ top (final (x s))
  stays : top (final (x s)) ≤ hi → ∀ m, (memory s).Agree lo hi m →
    ∃ m', x (upon s m) = replaced m' (x s) ∧ (memory (final (x s))).Agree lo hi m' ∧
      m.AgreeOff lo hi m'

namespace Within

variable {lo hi : Nat} {x : EStateM ε σ α} {f : α → EStateM ε σ β} {s s₁ : σ} {a : α}

/-- A step that never looks at the memory. -/
theorem aside (htop : top s ≤ top (final (x s))) (hmem : memory (final (x s)) = memory s)
    (hx : ∀ m, x (upon s m) = replaced m (x s)) :
    Within lo hi x s :=
  ⟨htop, fun _ m hm => ⟨m, hx m, hmem ▸ hm, .refl lo hi m⟩⟩

/-- A step that only looks, and finds the same in all memories that agree there. -/
theorem known (hfinal : final (x s) = s)
    (hx : top s ≤ hi → ∀ m, (memory s).Agree lo hi m → x (upon s m) = replaced m (x s)) :
    Within lo hi x s := by
  refine ⟨by rw [hfinal], fun hhi m hm => ⟨m, hx (hfinal ▸ hhi) m hm, ?_, .refl lo hi m⟩⟩
  rw [hfinal]
  exact hm

protected theorem pure (a : α) (s : σ) : Within lo hi (pure a : EStateM ε σ α) s :=
  aside (Nat.le_refl _) rfl fun _ => rfl

protected theorem throw (e : ε) (s : σ) : Within lo hi (throw e : EStateM ε σ α) s :=
  aside (Nat.le_refl _) rfl fun _ => rfl

theorem bind (hx : Within lo hi x s) (hf : ∀ a s₁, x s = .ok a s₁ → Within lo hi (f a) s₁) :
    Within lo hi (x >>= f) s := by
  have hbind := bind_run x f
  rcases hrun : x s with ⟨a, s₁⟩ | ⟨e, s₁⟩
  · have hf := hf a s₁ hrun
    have hs : (x >>= f) s = f a s₁ := by rw [hbind, hrun]
    have hrises : top s ≤ top s₁ := by simpa only [hrun, final] using hx.rises
    refine ⟨by rw [hs]; exact Nat.le_trans hrises hf.rises, fun hhi m hm => ?_⟩
    rw [hs] at hhi ⊢
    obtain ⟨m₁, hrun₁, hagree₁, hoff₁⟩ :=
      hx.stays (by rw [hrun]; exact Nat.le_trans hf.rises hhi) m hm
    rw [hrun] at hrun₁ hagree₁
    obtain ⟨m₂, hrun₂, hagree₂, hoff₂⟩ := hf.stays hhi m₁ hagree₁
    refine ⟨m₂, ?_, hagree₂, hoff₁.trans hoff₂⟩
    rw [hbind, hrun₁]
    exact hrun₂
  · have hs : (x >>= f) s = .error e s₁ := by rw [hbind, hrun]
    refine ⟨by simpa only [hs, hrun, final] using hx.rises, fun hhi m hm => ?_⟩
    rw [hs] at hhi ⊢
    obtain ⟨m₁, hrun₁, hagree₁, hoff₁⟩ := hx.stays (by rw [hrun]; exact hhi) m hm
    rw [hrun] at hrun₁ hagree₁
    refine ⟨m₁, ?_, hagree₁, hoff₁⟩
    rw [hbind, hrun₁]
    rfl

theorem ite {c : Prop} [Decidable c] {x y : EStateM ε σ α} (hx : c → Within lo hi x s)
    (hy : ¬ c → Within lo hi y s) :
    Within lo hi (if c then x else y) s := by
  split
  · next hc => exact hx hc
  · next hc => exact hy hc

/-- The first part ends as is known. -/
theorem step (hrun : x s = .ok a s₁) (hx : Within lo hi x s) (hf : Within lo hi (f a) s₁) :
    Within lo hi (x >>= f) s := by
  refine hx.bind fun b s₂ hrun₂ => ?_
  rw [hrun] at hrun₂
  injection hrun₂ with ha hs
  exact ha ▸ hs ▸ hf

/-- The first part stops. -/
theorem halt {e : ε} (hrun : x s = .error e s₁) (hx : Within lo hi x s) :
    Within lo hi (x >>= f) s := by
  refine hx.bind fun b s₂ hrun₂ => ?_
  rw [hrun] at hrun₂
  cases hrun₂

/-- Another step that does the same here. -/
theorem congr {y : EStateM ε σ α} (hy : Within lo hi y s) (hs : x s = y s)
    (hm : top s ≤ hi → ∀ m, (memory s).Agree lo hi m → x (upon s m) = y (upon s m)) :
    Within lo hi x s := by
  refine ⟨by rw [hs]; exact hy.rises, fun hhi m hagree => ?_⟩
  rw [hs] at hhi ⊢
  rw [hm (Nat.le_trans hy.rises hhi) m hagree]
  exact hy.stays hhi m hagree

/-- What is done with the state must not hang on its memory. -/
theorem bind_get {f : σ → EStateM ε σ β} (hcongr : ∀ m, f (upon s m) = f s)
    (hf : Within lo hi (f s) s) :
    Within lo hi ((get : EStateM ε σ σ) >>= f) s := by
  refine .congr hf rfl fun _ m _ => ?_
  have hget : ((get : EStateM ε σ σ) >>= f) (upon s m) = f (upon s m) (upon s m) := rfl
  rw [hget, hcongr]

protected theorem discard (hx : Within lo hi x s) :
    Within lo hi (discard x : EStateM ε σ Unit) s := by
  have hd := discard_run x
  have hfinal : final ((Functor.discard x : EStateM ε σ Unit) s) = final (x s) := by
    rw [hd]
    cases x s <;> rfl
  refine ⟨by rw [hfinal]; exact hx.rises, fun hhi m hm => ?_⟩
  rw [hfinal] at hhi ⊢
  obtain ⟨m', hrun, hagree, hoff⟩ := hx.stays hhi m hm
  refine ⟨m', ?_, hagree, hoff⟩
  rw [hd, hd, hrun]
  cases x s <;> rfl

/-- Nothing outside the window has changed. -/
theorem frame (hx : Within lo hi x s) (hhi : top (final (x s)) ≤ hi) :
    (memory s).AgreeOff lo hi (memory (final (x s))) := by
  obtain ⟨m', hrun, -, hoff⟩ := hx.stays hhi (memory s) (.refl lo hi _)
  rw [upon_memory] at hrun
  have hm' : memory (final (x s)) = m' := by
    cases h : x s <;> rw [h] at hrun <;> injection hrun with _ hs <;> rw [final, hs, memory_upon]
  rw [hm']
  exact hoff

end Within

end Steps

/-! ## Looking -/

/-- What the reading finds does not hang on bytes outside the window. -/
def Sees {α : Type} (lo hi : Nat) (x : Reading α) (m : Memory) : Prop :=
  ∀ m', m.Agree lo hi m' → x m' = x m

section Look

variable {α β : Type} {lo hi : Nat} {m : Memory} {s : Store}

namespace Sees

protected theorem pure (a : α) (m : Memory) : Sees lo hi (pure a : Reading α) m := fun _ _ => rfl

protected theorem throw (f : Fault) (m : Memory) : Sees lo hi (throw f : Reading α) m :=
  fun _ _ => rfl

protected theorem except (x : Except Fault α) (m : Memory) : Sees lo hi (liftM x : Reading α) m :=
  fun _ _ => rfl

theorem bind {x : Reading α} {f : α → Reading β} (hx : Sees lo hi x m)
    (hf : ∀ a, x m = .ok a → Sees lo hi (f a) m) :
    Sees lo hi (x >>= f) m := by
  intro m' hm
  rw [Reading.bind_apply, Reading.bind_apply, hx m' hm]
  cases hrun : x m with
  | error => rfl
  | ok a => exact hf a hrun m' hm

end Sees

section Codec

variable {r : Region} {addr bp : Nat} (hhi : r.high ≤ hi)

include hhi

theorem sees_read (h : lo ≤ addr) : Sees lo hi (r.read addr) m := by
  intro m' hm
  unfold Region.read
  by_cases hin : r.HoldsWord addr
  · rw [if_pos hin, if_pos hin, hm.word h (Nat.le_trans hin.2 hhi)]
  · rw [if_neg hin, if_neg hin]

theorem sees_tag (h : lo + 8 ≤ bp) : Sees lo hi (r.tag bp) m := by
  refine .bind (.except _ _) fun addr haddr => .bind (sees_read hhi ?_) fun _ _ => .pure _ _
  obtain ⟨-, -, -, rfl⟩ := Region.header_ok.mp haddr
  omega

theorem sees_size (h : lo + 8 ≤ bp) : Sees lo hi (r.size bp) m :=
  .bind (sees_tag hhi h) fun _ _ => .pure _ _

theorem sees_above (h : lo + 8 ≤ bp) : Sees lo hi (r.above bp) m :=
  .bind (sees_size hhi h) fun _ _ => .except _ _

theorem sees_footer (h : lo + 8 ≤ bp) : Sees lo hi (r.footer bp) m :=
  .bind (sees_size hhi h) fun _ _ => .bind (.except _ _) fun _ _ => .except _ _

theorem sees_links (h : lo ≤ bp) : Sees lo hi (r.links bp) m := by
  refine .bind (.bind (sees_read hhi h) fun _ _ => .except _ _) fun next _ =>
    .bind (.bind (.except _ _) fun addr haddr => ?_) fun _ _ => .pure _ _
  refine .bind (sees_read hhi ?_) fun _ _ => .except _ _
  rw [eq_of_checkedAdd haddr]
  omega

end Codec

end Look

/-! ## Writing words -/

section Write

variable {α β : Type} {lo hi : Nat} {m : Memory}

namespace Within

theorem writing_except {x : Except Fault α} {f : α → Writing β}
    (hf : ∀ a, x = .ok a → Within lo hi (f a) m) :
    Within lo hi (liftM x >>= f) m := by
  refine .bind ?_ fun a m₁ hrun => ?_
  · cases x <;> exact aside (Nat.le_refl _) rfl fun _ => rfl
  · rw [Writing.lift_except] at hrun
    cases x with
    | error => cases hrun
    | ok b =>
      injection hrun with ha hm
      exact hm ▸ hf a (congrArg Except.ok ha)

theorem writing_reading {x : Reading α} {f : α → Writing β} (hx : Sees lo hi x m)
    (hf : ∀ a, x m = .ok a → Within lo hi (f a) m) :
    Within lo hi (liftM x >>= f) m := by
  refine .bind ?_ fun a m₁ hrun => ?_
  · have hfinal : final ((liftM x : Writing α) m) = m := by
      rw [Writing.lift_reading]
      cases x m <;> rfl
    refine ⟨Nat.zero_le _, fun _ m' hm => ⟨m', ?_, by rw [hfinal]; exact hm, .refl lo hi m'⟩⟩
    show (liftM x : Writing α) m' = _
    rw [Writing.lift_reading, Writing.lift_reading, hx m' hm]
    cases x m <;> rfl
  · rw [Writing.lift_reading] at hrun
    cases hx : x m with
    | error =>
      rw [hx] at hrun
      cases hrun
    | ok b =>
      rw [hx] at hrun
      injection hrun with ha hm
      exact hm ▸ hf a (hx.trans (congrArg Except.ok ha))

end Within

variable {r : Region} {addr bp : Nat} (hhi : r.high ≤ hi)

include hhi

theorem within_write (h : lo ≤ addr) (w : Nat) : Within lo hi (r.write addr w) m := by
  by_cases hin : r.HoldsWord addr
  · have hrun : ∀ m, r.write addr w m = .ok () (m.setWord addr w) := fun m => if_pos hin
    refine ⟨Nat.zero_le _, fun _ m' hm => ⟨m'.setWord addr w, ?_, ?_,
      Memory.agreeOff_setWord h (Nat.le_trans hin.2 hhi) m' w⟩⟩
    · rw [hrun m]
      exact hrun m'
    · rw [hrun m]
      exact hm.setWord addr w
  · have hrun : ∀ m, r.write addr w m = .error (.outside addr) m := fun m => if_neg hin
    exact .aside (Nat.zero_le _) (by rw [hrun]; rfl) fun m' => by rw [hrun m]; exact hrun m'

/-- The word below a block. -/
theorem within_header (h : lo + 8 ≤ bp) (w : Nat) :
    Within lo hi (do r.write (← r.header bp) w : Writing Unit) m := by
  refine .writing_except fun addr haddr => within_write hhi ?_ w
  obtain ⟨-, -, -, rfl⟩ := Region.header_ok.mp haddr
  omega

theorem within_writeAllocated (h : lo + 8 ≤ bp) (size : Nat) (p : Bool) :
    Within lo hi (r.writeAllocated bp size p) m :=
  within_header hhi h _

theorem within_writeFree {size : Nat} (h : lo + 8 ≤ bp) (hsize : lo + 16 ≤ bp + size) (p : Bool) :
    Within lo hi (r.writeFree bp size p) m := by
  refine .writing_except fun addr haddr => .bind (within_write hhi ?_ _) fun _ m₁ _ => ?_
  · obtain ⟨-, -, -, rfl⟩ := Region.header_ok.mp haddr
    omega
  · refine .writing_except fun top htop => .writing_except fun addr haddr => within_write hhi ?_ _
    rw [eq_of_checkedSub haddr, eq_of_checkedAdd htop, doubleWord]
    omega

theorem within_setPrevAlloc (h : lo + 16 ≤ bp) (p : Bool) :
    Within lo hi (r.setPrevAlloc bp p) m := by
  refine .writing_reading (sees_tag hhi (by omega)) fun tag _ => ?_
  split
  · refine .writing_except fun addr haddr => .bind (within_write hhi ?_ _) fun _ m₁ _ => ?_
    · obtain ⟨-, -, -, rfl⟩ := Region.header_ok.mp haddr
      omega
    · split
      · refine .writing_reading (sees_footer hhi (by omega)) fun addr haddr => within_write hhi ?_ _
        obtain ⟨-, rfl⟩ := Region.footer_ok haddr
        omega
      · exact .pure _ _
  · exact .pure _ _

theorem within_setNext (h : lo ≤ bp) (next : Option Nat) : Within lo hi (r.setNext bp next) m :=
  .writing_except fun _ _ => within_write hhi h _

theorem within_setPrev (h : lo ≤ bp) (prev : Option Nat) : Within lo hi (r.setPrev bp prev) m := by
  refine .writing_except fun addr haddr => .writing_except fun _ _ => within_write hhi ?_ _
  rw [eq_of_checkedAdd haddr]
  omega

end Write

/-! ## Filing -/

section Filing

variable {α β : Type} {lo hi : Nat} {s : Store}

namespace Within

theorem store_except {x : Except Fault α} {f : α → StoreM β}
    (hf : ∀ a, x = .ok a → Within lo hi (f a) s) :
    Within lo hi (liftM x >>= f) s := by
  refine .bind ?_ fun a s₁ hrun => ?_
  · cases x <;> exact aside (Nat.le_refl _) rfl fun _ => rfl
  · rw [StoreM.lift_except] at hrun
    cases x with
    | error => cases hrun
    | ok b =>
      injection hrun with ha hs
      exact hs ▸ hf a (congrArg Except.ok ha)

theorem store_reading {x : Reading α} {f : α → StoreM β} (hx : Sees lo hi x s.memory)
    (hf : ∀ a, x s.memory = .ok a → Within lo hi (f a) s) :
    Within lo hi (liftM x >>= f) s := by
  refine .bind ?_ fun a s₁ hrun => ?_
  · have hfinal : final ((liftM x : StoreM α) s) = s := by
      rw [StoreM.lift_reading]
      cases x s.memory <;> rfl
    refine ⟨Nat.zero_le _, fun _ m hm => ⟨m, ?_, by rw [hfinal]; exact hm, .refl lo hi m⟩⟩
    show (liftM x : StoreM α) ⟨m, s.buckets⟩ = _
    rw [StoreM.lift_reading, StoreM.lift_reading, hx m hm]
    cases x s.memory <;> rfl
  · rw [StoreM.lift_reading] at hrun
    cases hx : x s.memory with
    | error =>
      rw [hx] at hrun
      cases hrun
    | ok b =>
      rw [hx] at hrun
      injection hrun with ha hs
      exact hs ▸ hf a (hx.trans (congrArg Except.ok ha))

theorem store_writing {x : Writing α} (hx : Within lo hi x s.memory) :
    Within lo hi (liftM x : StoreM α) s := by
  refine ⟨Nat.zero_le _, fun _ m hm => ?_⟩
  obtain ⟨m', hrun, hagree, hoff⟩ := hx.stays (Nat.zero_le _) m hm
  have hfinal : Backed.memory (final ((liftM x : StoreM α) s)) = final (x s.memory) := by
    rw [StoreM.lift_writing]
    cases x s.memory <;> rfl
  refine ⟨m', ?_, by rw [hfinal]; exact hagree, hoff⟩
  show (liftM x : StoreM α) ⟨m, s.buckets⟩ = _
  have hrun : x m = replaced m' (x s.memory) := hrun
  rw [StoreM.lift_writing, StoreM.lift_writing, hrun]
  cases x s.memory <;> rfl

/-- What is looked at is known. -/
theorem look {x : Reading α} {f : α → StoreM β} {a : α} (hrun : x s.memory = .ok a)
    (hx : Sees lo hi x s.memory) (hf : Within lo hi (f a) s) :
    Within lo hi (liftM x >>= f) s := by
  refine .store_reading hx fun b hb => ?_
  rw [hrun] at hb
  exact Except.ok.inj hb ▸ hf

/-- A write that is known to be done. -/
theorem put {x : Writing Unit} {f : Unit → StoreM β} {m : Memory} (hrun : x s.memory = .ok () m)
    (hx : Within lo hi x s.memory) (hf : Within lo hi (f ()) ⟨m, s.buckets⟩) :
    Within lo hi (liftM x >>= f) s :=
  .step (by rw [StoreM.lift_writing, hrun]) (.store_writing hx) hf

end Within

/-- Every filed block, header and all, lies in the window. -/
def Index.Above (lo : Nat) (idx : Index) : Prop := ∀ c, ∀ e ∈ idx c, lo + 8 ≤ e.bp

variable {r : Region} {idx : Index} {e : Entry} {bp : Nat}

theorem within_setHead (cls : Nat) (bp : Option Nat) : Within lo hi (Store.setHead cls bp) s :=
  .aside (Nat.le_refl _) rfl fun _ => rfl

/-- The member before a block, or the head of its list, gets a new next link. -/
theorem within_setBefore (hhi : r.high ≤ hi) (prev : Option Nat) (cls : Nat) (next : Option Nat) :
    (∀ p, prev = some p → lo + 8 ≤ p) →
    Within lo hi (match prev with
      | some prev => liftM (r.setNext prev next)
      | none => Store.setHead cls next : StoreM Unit) s := by
  intro hprev
  cases prev with
  | none => exact within_setHead cls next
  | some p => exact .store_writing (within_setNext hhi (by have := hprev p rfl; omega) _)

/-- The member behind a block, if there is one, gets a new previous link. -/
theorem within_setBehind (hhi : r.high ≤ hi) (next prev : Option Nat) :
    (∀ n, next = some n → lo + 8 ≤ n) →
    Within lo hi (if let some next := next then liftM (r.setPrev next prev)
      else pure () : StoreM Unit) s := by
  intro hnext
  cases next with
  | none => exact .pure _ _
  | some n => exact .store_writing (within_setPrev hhi (by have := hnext n rfl; omega) _)

namespace Files

theorem agree (h : Files r s idx) (hlo : idx.Above lo) (hhi : r.high ≤ hi) {m : Memory}
    (hm : s.memory.Agree lo hi m) :
    Files r ⟨m, s.buckets⟩ idx := by
  refine h.congr fun c e he y h1 h2 => hm y ?_ ?_
  · have := hlo c e he
    omega
  · have := (h.stands c e he).room
    have := (h.stands c e he).le_high
    omega

theorem sees_slot (h : Files r s idx) (hlo : idx.Above lo) (hhi : r.high ≤ hi) (c size : Nat) :
    Sees lo hi (s.buckets.slot r c size) s.memory :=
  fun _ hm => ((h.agree hlo hhi hm).slot c size).trans (h.slot c size).symm

theorem sees_findFit (h : Files r s idx) (hlo : idx.Above lo) (hhi : r.high ≤ hi) {size : Nat}
    (h32 : 32 ≤ size) :
    Sees lo hi (s.buckets.findFit r size) s.memory :=
  fun _ hm => ((h.agree hlo hhi hm).findFit h32).trans (h.findFit h32).symm

variable {P : Nat → Prop} (hP : ∀ c, ∀ e ∈ idx c, P e.bp)

include hP

/-- The neighbours that a new block gets are filed. -/
theorem slot_filed (h : Files r s idx) {c size : Nat} {prev next : Option Nat}
    (hslot : s.buckets.slot r c size s.memory = .ok (prev, next)) :
    (∀ p, prev = some p → P p) ∧ ∀ n, next = some n → P n := by
  rw [h.slot] at hslot
  obtain ⟨rfl, rfl⟩ := Prod.mk.inj (Except.ok.inj hslot)
  have hsplit := Index.slot_append c size (idx c)
  constructor
  · intro p hp
    obtain ⟨e, he, rfl⟩ := Place.prev_mem hp
    exact hP c e (hsplit ▸ List.mem_append_left _ he)
  · intro n hn
    obtain ⟨e, he, rfl⟩ := mem_of_firstOr hn
    exact hP c e (hsplit ▸ List.mem_append_right _ he)

/-- The neighbours of a filed block are filed. -/
theorem links_filed (h : Files r s idx) {c : Nat} (he : e ∈ idx c) {next prev : Option Nat}
    (hlinks : r.links e.bp s.memory = .ok ⟨next, prev⟩) :
    (∀ n, next = some n → P n) ∧ ∀ p, prev = some p → P p := by
  obtain ⟨pre, post, hsplit⟩ := List.append_of_mem he
  rw [h.links hsplit] at hlinks
  obtain ⟨rfl, rfl⟩ := Links.mk.inj (Except.ok.inj hlinks)
  constructor
  · intro n hn
    obtain ⟨f, hf, rfl⟩ := mem_of_firstOr hn
    exact hP c f (by rw [hsplit]; simp [hf])
  · intro p hp
    obtain ⟨f, hf, rfl⟩ := Place.prev_mem hp
    exact hP c f (by rw [hsplit]; simp [hf])

omit hP

theorem insert_within (h : Files r s idx) (hlo : idx.Above lo) (hhi : r.high ≤ hi)
    (hbp : lo + 8 ≤ bp) :
    Within lo hi (Store.insert r bp) s := by
  unfold Store.insert
  refine .store_reading (sees_size hhi hbp) fun size _ => .store_except fun cls _ =>
    .bind_get (fun _ => rfl) ?_
  refine .store_reading (h.sees_slot hlo hhi cls size) fun ⟨prev, next⟩ hslot => ?_
  obtain ⟨hprev, hnext⟩ := h.slot_filed hlo hslot
  refine .bind (.store_writing (within_setNext hhi (by omega) next)) fun _ s₁ _ => ?_
  refine .bind (.store_writing (within_setPrev hhi (by omega) prev)) fun _ s₂ _ => ?_
  cases next with
  | none => exact within_setBefore hhi prev cls (some bp) hprev
  | some n =>
    have hn := hnext n rfl
    exact .bind (.store_writing (within_setPrev hhi (by omega) _)) fun _ s₃ _ =>
      within_setBefore hhi prev cls (some bp) hprev

theorem remove_within (h : Files r s idx) (hlo : idx.Above lo) (hhi : r.high ≤ hi) {c : Nat}
    (he : e ∈ idx c) :
    Within lo hi (Store.remove r e.bp) s := by
  have hbp := hlo c e he
  unfold Store.remove
  refine .store_reading (sees_size hhi hbp) fun size _ => .store_except fun cls _ => ?_
  refine .store_reading (sees_links hhi (by omega)) fun ⟨next, prev⟩ hlinks => ?_
  obtain ⟨hnext, hprev⟩ := h.links_filed hlo he hlinks
  have hlast : ∀ s, Within lo hi _ s := fun s => within_setBehind (s := s) hhi next prev hnext
  cases prev with
  | none =>
    refine .bind_get (fun _ => rfl) (.ite (fun _ => .bind (.throw _ _) fun _ s _ => ?_) fun _ => ?_)
    · exact .bind (within_setHead cls next) fun _ s _ => hlast s
    · exact .bind (within_setHead cls next) fun _ s _ => hlast s
  | some p =>
    have hp := hprev p rfl
    exact .bind (.store_writing (within_setNext hhi (by omega) _)) fun _ s _ => hlast s

end Files

end Filing

/-! ## Blocks -/

section Blocks

variable {lo hi first : Nat} {r : Region} {s : Store} {row L R : List Tile} {idx : Index}
  {es : List Entry} {t u v w : Tile}

theorem Tiled.first_le {m : Memory} (h : Tiled r m first row) (ht : t ∈ row) : first ≤ t.bp :=
  (h.row.bounds ht).1

theorem Filed.above (h : Filed r first s row idx es) (hlo : lo + 16 ≤ first) : idx.Above lo := by
  intro c e he
  obtain ⟨t, ht, -, rfl⟩ := mem_vacant.mp (h.sublist.subset ((h.covers c e).mp he).2)
  have := h.tiled.first_le ht
  simp only [Tile.entry]
  omega

/-- The row can be told from any memory that has the bytes of its blocks. -/
theorem Tiled.agree {m m' : Memory} (h : Tiled r m first row) (hlo : lo + 16 ≤ first)
    (hhi : r.high ≤ hi) (hm : m.Agree lo hi m') :
    Tiled r m' first row := by
  refine h.congr fun t ht y hy => hm y ?_ ?_
  all_goals
    have hbounds := hy.bounds (h.fits ht)
    have hfirst := h.first_le ht
    obtain ⟨-, -, hstop⟩ := h.within ht
    simp only [Tile.stop] at *
    omega

theorem Filed.agree {m : Memory} (h : Filed r first s row idx es) (hlo : lo + 16 ≤ first)
    (hhi : r.high ≤ hi) (hm : s.memory.Agree lo hi m) : Filed r first ⟨m, s.buckets⟩ row idx es :=
  ⟨h.tiled.agree hlo hhi hm, h.files.agree (h.above hlo) hhi hm, h.covers, h.sublist⟩

variable (hlo : lo + 16 ≤ first) (hhi : r.high ≤ hi)

include hlo hhi

namespace Filed

/-- The last steps of merging. -/
theorem merge_within {X M Y : List Tile} {y : Tile} {b : Nat}
    (h : Filed r first s (X ++ (M ++ y :: Y)) idx (vacant X ++ (es ++ vacant (y :: Y))))
    (hM : Spans b true M y.bp false) (hn : M ≠ []) :
    Within lo hi (Store.merge r b (y.bp - b) es) s := by
  induction es generalizing s idx with
  | nil =>
    obtain ⟨m', hwrite, -, hfiled⟩ := h.clear hM hn
    have hb : first ≤ b := hfiled.tiled.first_le (t := gap b y.bp) (by simp)
    have hroom := hM.length.2 hn
    refine .put hwrite (within_writeFree hhi (by omega) (by omega) true) ?_
    exact .bind (hfiled.files.insert_within (hfiled.above hlo) hhi (by omega)) fun _ _ _ =>
      .pure _ _
  | cons e es ih =>
    obtain ⟨s₁, hrun, h₁, -⟩ := h.remove
    exact .step hrun (h.files.remove_within (h.above hlo) hhi (h.mem (by simp))) (ih h₁)

theorem coalesce_within (h : Filed r first s (L ++ t :: u :: R) idx (vacant L ++ vacant (u :: R)))
    (hfree : t.tag.alloc = false) (hL : Spaced L) (hR : Spaced R) :
    Within lo hi (Store.coalesce r t.bp) s := by
  obtain ⟨X, W, V, Y, y, b, ha, hrun⟩ := h.merges hfree hL hR
  refine .congr (y := Store.merge r b (y.bp - b) (vacant (W ++ V))) ?_ (hrun h) fun _ m hm =>
    hrun (h.agree hlo hhi hm)
  rw [ha.row_eq, ha.vacant_eq] at h
  exact h.merge_within hlo hhi ha.spans (by simp)

/-- Taking a block out of its list. -/
theorem remove_step {xs ys : List Entry} {e : Entry} {β : Type} {f : Unit → StoreM β}
    (h : Filed r first s row idx (xs ++ e :: ys))
    (hf : ∀ s₁, Filed r first s₁ row (idx.erase e) (xs ++ ys) → Within lo hi (f ()) s₁) :
    Within lo hi (Store.remove r e.bp >>= f) s := by
  obtain ⟨s₁, hrun, h₁, -⟩ := h.remove
  exact .step hrun (h.files.remove_within (h.above hlo) hhi (h.mem (by simp))) (hf s₁ h₁)

end Filed

/-- Cutting a block that is not filed. -/
theorem split_within {size : Nat} {a : Bool} (hole : Holed r s.memory first L t (v :: R))
    (htag : r.tag t.bp s.memory = .ok ⟨t.tag.size, t.tag.prevAlloc, a⟩) (hf : Files r s idx)
    (hc : Covers idx (vacant L ++ vacant (v :: R))) (hL : Spaced L) (hR : Spaced R)
    (h8 : size % 8 = 0) (h32 : 32 ≤ size) (hle : size ≤ t.tag.size) :
    Within lo hi (Store.split r t.bp size) s := by
  have ht : first ≤ t.bp := (hole.row.bounds (by simp)).1
  obtain ⟨⟨-, -, -, -, hvbp, -⟩, -⟩ := hole.row.spans_one
  simp only [Tile.stop] at hvbp
  refine .look htag (sees_tag hhi (by omega)) ?_
  refine .ite (fun hlt => absurd hlt (Nat.not_lt.mpr hle)) fun _ =>
    .ite (fun hrest => ?_) fun _ => ?_
  · obtain ⟨m₁, m₂, m₃, hwrite₁, habove₁, hwrite₂, habove₂, hset, hfiled, hspaced, -⟩ :=
      split_rest hole hf hc hL h8 h32 hrest
    simp only [minBlock] at hrest
    refine .put hwrite₁ (within_writeAllocated hhi (by omega) _ _)
      (.look habove₁ (sees_above hhi (by omega)) ?_)
    refine .put hwrite₂ (within_writeFree hhi (by omega) (by omega) _)
      (.look habove₂ (sees_above hhi (by omega)) ?_)
    have hrest : Within lo hi (Store.coalesce r (t.back size).bp) ⟨m₃, s.buckets⟩ :=
      hfiled.coalesce_within hlo hhi rfl hspaced hR
    exact .put hset (within_setPrevAlloc hhi (by omega) _) (.discard hrest)
  · refine .bind (.store_writing (within_writeAllocated hhi (by omega) _ _)) fun _ s₁ _ => ?_
    refine .store_reading (sees_above hhi (by omega)) fun next hnext =>
      .store_writing (within_setPrevAlloc hhi ?_ _)
    obtain rfl := Region.above_ok hnext
    omega

namespace Sound

theorem place_within {size : Nat} (h : Sound r first s (L ++ t :: v :: R) idx)
    (hfree : t.tag.alloc = false) (h8 : size % 8 = 0) (h32 : 32 ≤ size) (hle : size ≤ t.tag.size) :
    Within lo hi (Store.place r t.bp size) s := by
  have hfiled := h.filed
  rw [vacant_append, vacant_cons_free hfree] at hfiled
  refine hfiled.remove_step hlo hhi fun s₁ h₁ => ?_
  exact split_within hlo hhi (h₁.tiled.hole (Nat.le_trans h32 hle))
    (h₁.tiled.tag (by simp)) h₁.files h₁.covers h.spaced_left
    (fun x hx => h.spaced x (by simp [hx])) h8 h32 hle

theorem shrink_within {size : Nat} (h : Sound r first s (L ++ t :: v :: R) idx)
    (halloc : t.tag.alloc = true) (h8 : size % 8 = 0) (h32 : 32 ≤ size) (hle : size ≤ t.tag.size) :
    Within lo hi (Store.split r t.bp size) s := by
  have hfiled := h.filed
  rw [vacant_append, vacant_cons_alloc halloc] at hfiled
  exact split_within hlo hhi (hfiled.tiled.hole (Nat.le_trans h32 hle))
    (hfiled.tiled.tag (by simp)) hfiled.files hfiled.covers
    h.spaced_left (fun x hx => h.spaced x (by simp [hx])) h8 h32 hle

theorem growInPlace_within {size : Nat} (h : Sound r first s (L ++ t :: u :: R) idx)
    (halloc : t.tag.alloc = true) (h8 : size % 8 = 0) (h32 : 32 ≤ size) :
    Within lo hi (Store.growInPlace r t.bp size) s := by
  have mt : t ∈ L ++ t :: u :: R := by simp
  have mu : u ∈ L ++ t :: u :: R := by simp
  have ht := h.tiled.first_le mt
  have hu := h.tiled.first_le mu
  refine .look (h.tiled.tag mt) (sees_tag hhi (by omega))
    (.look (h.tiled.above mt) (sees_above hhi (by omega)) ?_)
  rw [← h.tiled.next.1]
  refine .look (h.tiled.tag mu) (sees_tag hhi (by omega)) (.ite (fun _ => .pure _ _) fun hua => ?_)
  refine .store_except fun total htotal => .ite (fun _ => .pure _ _) fun hle => ?_
  rw [eq_of_checkedAdd htotal] at hle ⊢
  have hua : u.tag.alloc = false := Bool.not_eq_true _ ▸ hua
  have hrow := h.tiled.row
  rw [List.append_cons] at hrow
  obtain ⟨v, R, rfl, -⟩ := hrow.succ_free hua fun x hx => h.spaced x (by simp [hx])
  obtain ⟨s₁, m₁, hremove, hwrite, hole, htag, hfiles, hcovers, -⟩ := h.absorb halloc hua
  have hmem : u.entry ∈ idx (sizeClass u.entry.size) :=
    h.filed.mem (mem_vacant.mpr ⟨u, mu, hua, rfl⟩)
  refine .step hremove
    (Files.remove_within (e := u.entry) h.filed.files (h.filed.above hlo) hhi hmem) ?_
  have hsplit : Within lo hi (Store.split r t.bp size) ⟨m₁, s₁.buckets⟩ :=
    split_within (t := t.joined u)
      (s := ⟨m₁, s₁.buckets⟩) hlo hhi hole htag hfiles hcovers h.spaced_left
      (fun x hx => h.spaced x (by simp [hx])) h8 h32 (Nat.not_lt.mp hle)
  refine .put hwrite (within_writeAllocated hhi (by omega) _ _)
    (.bind hsplit fun _ _ _ => .pure _ _)

theorem free_within (h : Sound r first s (L ++ t :: u :: R) idx) (halloc : t.tag.alloc = true) :
    Within lo hi (Store.free r t.bp) s := by
  have mt : t ∈ L ++ t :: u :: R := by simp
  have ht := h.tiled.first_le mt
  obtain ⟨⟨-, -, -, h32, hubp, -⟩, -⟩ := h.tiled.row.spans_one
  simp only [Tile.stop] at hubp
  obtain ⟨m₁, m₂, hwrite, habove, hset, hfiled, -⟩ := h.vacate halloc
  refine .look (h.tiled.tag mt) (sees_tag hhi (by omega))
    (.put hwrite (within_writeFree hhi (by omega) (by omega) _) ?_)
  refine .look habove (sees_above hhi (by omega))
    (.put hset (within_setPrevAlloc hhi (by omega) _) (.discard ?_))
  exact Filed.coalesce_within (t := ⟨t.bp, ⟨t.tag.size, t.tag.prevAlloc, false⟩⟩) hlo hhi hfiled
    rfl h.spaced_left
    fun x hx => h.spaced x (by simp [hx])

end Sound

end Blocks

end BoundaryTag
