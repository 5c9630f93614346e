/-
# `JevGrep.Lib.Exec` — computations over a state that may fail.

A computation takes a state and returns a result or an error with the state it reached, so that what
was done before a failure stays done. §1 the monad and its operations; §2 runs read backwards: what a
successful run of a composed computation went through; §3 triples, with one post-condition for success
and one for failure, and the rule of each operation; §4 what a computation adds to a measure.
-/
import Mathlib.Logic.Basic

namespace JevGrep.Lib

/-! ## §1 — the monad. -/

/-- The state reached survives a failure. -/
def Exec (σ ε α : Type) : Type := σ → Except ε α × σ

namespace Exec

variable {σ τ ε ε' α β : Type}

protected def pure (a : α) : Exec σ ε α := fun s => (.ok a, s)

protected def bind (m : Exec σ ε α) (f : α → Exec σ ε β) : Exec σ ε β := fun s =>
  match m s with
  | (.ok a, s') => f a s'
  | (.error e, s') => (.error e, s')

instance : Monad (Exec σ ε) where
  pure := Exec.pure
  bind := Exec.bind

/-- Fail, keeping the state. -/
def fail (e : ε) : Exec σ ε α := fun s => (.error e, s)

/-- The state. -/
def get : Exec σ ε σ := fun s => (.ok s, s)

def modify (f : σ → σ) : Exec σ ε Unit := fun s => (.ok (), f s)

/-- A call that cannot fail as a computation: what it returns is a value. -/
def call (f : σ → α × σ) : Exec σ ε α := fun s => (.ok (f s).1, (f s).2)

/-- Run `m` and have its outcome as a value. -/
def attempt (m : Exec σ ε α) : Exec σ ε' (Except ε α) := fun s => (.ok (m s).1, (m s).2)

/-- Run `m` on a part of the state. -/
def onPart (part : σ → τ) (put : τ → σ → σ) (m : Exec τ ε α) : Exec σ ε α := fun s =>
  ((m (part s)).1, put (m (part s)).2 s)

@[simp] theorem pure_run (a : α) (s : σ) : (pure a : Exec σ ε α) s = (.ok a, s) := rfl

@[simp] theorem fail_run (e : ε) (s : σ) : (fail e : Exec σ ε α) s = (.error e, s) := rfl

@[simp] theorem get_run (s : σ) : (get : Exec σ ε σ) s = (.ok s, s) := rfl

@[simp] theorem modify_run (f : σ → σ) (s : σ) : (modify f : Exec σ ε Unit) s = (.ok (), f s) := rfl

@[simp] theorem call_run (f : σ → α × σ) (s : σ) :
    (call f : Exec σ ε α) s = (.ok (f s).1, (f s).2) := rfl

@[simp] theorem attempt_run (m : Exec σ ε α) (s : σ) :
    (attempt m : Exec σ ε' (Except ε α)) s = (.ok (m s).1, (m s).2) := rfl

@[simp] theorem onPart_run (part : σ → τ) (put : τ → σ → σ) (m : Exec τ ε α) (s : σ) :
    onPart part put m s = ((m (part s)).1, put (m (part s)).2 s) := rfl

theorem bind_of_ok {m : Exec σ ε α} {f : α → Exec σ ε β} {s s' : σ} {a : α} (h : m s = (.ok a, s')) :
    (m >>= f) s = f a s' := by
  show (match m s with | (.ok a, s') => f a s' | (.error e, s') => (.error e, s')) = _
  rw [h]

theorem bind_of_error {m : Exec σ ε α} {f : α → Exec σ ε β} {s s' : σ} {e : ε}
    (h : m s = (.error e, s')) : (m >>= f) s = (.error e, s') := by
  show (match m s with | (.ok a, s') => f a s' | (.error e, s') => (.error e, s')) = _
  rw [h]

theorem assoc {γ : Type} (m : Exec σ ε α) (f : α → Exec σ ε β) (g : β → Exec σ ε γ) :
    (m >>= f) >>= g = m >>= fun a => f a >>= g := by
  funext s
  rcases h : m s with ⟨e | a, s'⟩
  · rw [bind_of_error (bind_of_error h), bind_of_error h]
  · rw [bind_of_ok h]
    rcases h' : f a s' with ⟨e | b, s''⟩
    · rw [bind_of_error h', bind_of_error ((bind_of_ok h).trans h')]
    · rw [bind_of_ok h', bind_of_ok ((bind_of_ok h).trans h')]

/-- A computation with nothing behind it. -/
theorem bind_unit (m : Exec σ ε Unit) : (m >>= fun _ => pure ()) = m := by
  funext s
  rcases h : m s with ⟨e | ⟨⟩, s'⟩
  · exact (bind_of_error h).trans rfl
  · exact (bind_of_ok h).trans rfl

/-! ## §2 — runs read backwards. -/

theorem bind_ok {m : Exec σ ε α} {f : α → Exec σ ε β} {s s' : σ} {b : β}
    (h : (m >>= f) s = (.ok b, s')) : ∃ a s₁, m s = (.ok a, s₁) ∧ f a s₁ = (.ok b, s') := by
  rcases hm : m s with ⟨e | a, s₁⟩
  · rw [bind_of_error hm] at h
    cases h
  · rw [bind_of_ok hm] at h
    exact ⟨a, s₁, rfl, h⟩

theorem bind_ok_iff {m : Exec σ ε α} {f : α → Exec σ ε β} {s s' : σ} {b : β} :
    (m >>= f) s = (.ok b, s') ↔ ∃ a s₁, m s = (.ok a, s₁) ∧ f a s₁ = (.ok b, s') := by
  constructor
  · exact bind_ok
  · rintro ⟨a, s₁, hm, hf⟩
    rw [bind_of_ok hm, hf]

/-! ## §3 — triples. -/

/-- From a state with `P`, `m` ends well in `Q` or fails in `E`. -/
def Triple (P : σ → Prop) (m : Exec σ ε α) (Q : α → σ → Prop) (E : ε → σ → Prop) : Prop :=
  ∀ s, P s → match m s with
    | (.ok a, s') => Q a s'
    | (.error e, s') => E e s'

/-- `m` preserves `I`, whether it ends well or fails. -/
def Keeps (I : σ → Prop) (m : Exec σ ε α) : Prop := Triple I m (fun _ => I) (fun _ => I)

namespace Triple

variable {P P' U : σ → Prop} {Q Q' : α → σ → Prop} {R : β → σ → Prop} {E E' : ε → σ → Prop}

theorem ok {m : Exec σ ε α} (h : Triple P m Q E) {s s' : σ} {a : α} (hs : P s)
    (hm : m s = (.ok a, s')) : Q a s' := by
  have := h s hs
  rwa [hm] at this

theorem error {m : Exec σ ε α} (h : Triple P m Q E) {s s' : σ} {e : ε} (hs : P s)
    (hm : m s = (.error e, s')) : E e s' := by
  have := h s hs
  rwa [hm] at this

/-- Every computation ends somehow. -/
theorem anyhow (m : Exec σ ε α) : Triple (fun _ => True) m (fun _ _ => True) (fun _ _ => True) := by
  intro s _
  split <;> trivial

theorem con {m : Exec σ ε α} (hpre : ∀ s, P s → P' s) (h : Triple P' m Q' E')
    (hok : ∀ a s, Q' a s → Q a s) (herr : ∀ e s, E' e s → E e s) : Triple P m Q E := by
  intro s hs
  have := h s (hpre s hs)
  rcases hm : m s with ⟨e | a, s'⟩ <;> rw [hm] at this
  · exact herr e s' this
  · exact hok a s' this

theorem con_pre {m : Exec σ ε α} (hpre : ∀ s, P s → U s) (h : Triple U m Q E) : Triple P m Q E :=
  fun s hs => h s (hpre s hs)

theorem pure {a : α} (h : ∀ s, P s → Q a s) : Triple P (pure a) Q E := h

theorem fail {e : ε} (h : ∀ s, P s → E e s) : Triple P (fail e) Q E := h

theorem modify {f : σ → σ} {Q : Unit → σ → Prop} (h : ∀ s, P s → Q () (f s)) :
    Triple P (modify f) Q E := h

theorem call {f : σ → α × σ} (h : ∀ s, P s → Q (f s).1 (f s).2) : Triple P (call f) Q E := h

theorem bind {m : Exec σ ε α} {f : α → Exec σ ε β} (hm : Triple P m Q E)
    (hf : ∀ a, Triple (Q a) (f a) R E) : Triple P (m >>= f) R E := by
  intro s hs
  have hms := hm s hs
  rcases h : m s with ⟨e | a, s'⟩ <;> rw [h] at hms
  · rw [bind_of_error h]
    exact hms
  · rw [bind_of_ok h]
    exact hf a s' hms

/-- The state read is the state the rest starts from. -/
theorem get_bind {f : σ → Exec σ ε β} (h : ∀ s₀, P s₀ → Triple (· = s₀) (f s₀) R E) :
    Triple P (get >>= f) R E := fun s hs => h s hs s rfl

theorem attempt_bind {m : Exec σ ε' α} {f : Except ε' α → Exec σ ε β} {Q : α → σ → Prop}
    {F : ε' → σ → Prop} (hm : Triple P m Q F) (hok : ∀ a, Triple (Q a) (f (.ok a)) R E)
    (herr : ∀ e, Triple (F e) (f (.error e)) R E) : Triple P (attempt m >>= f) R E := by
  intro s hs
  have hms := hm s hs
  show match f (m s).1 (m s).2 with
    | (.ok b, s') => R b s'
    | (.error e, s') => E e s'
  rcases h : m s with ⟨e | a, s'⟩ <;> rw [h] at hms
  · exact herr e s' hms
  · exact hok a s' hms

theorem ite {c : Prop} [Decidable c] {m m' : Exec σ ε α} (ht : c → Triple P m Q E)
    (hf : ¬c → Triple P m' Q E) : Triple P (if c then m else m') Q E := by
  split
  · exact ht ‹_›
  · exact hf ‹_›

theorem onPart {part : σ → τ} {put : τ → σ → σ} {m : Exec τ ε α} {P₁ : τ → Prop}
    {Q₁ : α → τ → Prop} {E₁ : ε → τ → Prop} (h : Triple P₁ m Q₁ E₁) (hpre : ∀ s, P s → P₁ (part s))
    (hok : ∀ s a t, P s → Q₁ a t → Q a (put t s)) (herr : ∀ s e t, P s → E₁ e t → E e (put t s)) :
    Triple P (onPart part put m) Q E := by
  intro s hs
  have hm := h (part s) (hpre s hs)
  show match ((m (part s)).1, put (m (part s)).2 s) with
    | (.ok a, s') => Q a s'
    | (.error e, s') => E e s'
  rcases hr : m (part s) with ⟨e | a, t⟩ <;> rw [hr] at hm
  · exact herr s e t hs hm
  · exact hok s a t hs hm

end Triple

namespace Keeps

variable {I : σ → Prop}

theorem pure (a : α) : Keeps I (Pure.pure a : Exec σ ε α) := Triple.pure fun _ h => h

theorem fail (e : ε) : Keeps I (Exec.fail e : Exec σ ε α) := Triple.fail fun _ h => h

theorem modify {f : σ → σ} (h : ∀ s, I s → I (f s)) : Keeps I (Exec.modify f : Exec σ ε Unit) :=
  Triple.modify h

theorem bind {m : Exec σ ε α} {f : α → Exec σ ε β} (hm : Keeps I m) (hf : ∀ a, Keeps I (f a)) :
    Keeps I (m >>= f) := Triple.bind hm hf

theorem get_bind {f : σ → Exec σ ε β} (hf : ∀ s, Keeps I (f s)) : Keeps I (get >>= f) :=
  Triple.get_bind fun s hs => Triple.con_pre (fun _ h => h ▸ hs) (hf s)

theorem attempt_bind {m : Exec σ ε' α} {f : Except ε' α → Exec σ ε β} (hm : Keeps I m)
    (hok : ∀ a, Keeps I (f (.ok a))) (herr : ∀ e, Keeps I (f (.error e))) :
    Keeps I (attempt m >>= f) := Triple.attempt_bind hm hok herr

end Keeps

/-! ## §4 — what a computation adds to a measure. -/

/-- However `m` ends, the measure has grown by at most `n`. -/
def Adds (measure : σ → Nat) (n : Nat) (m : Exec σ ε α) : Prop := ∀ s, measure (m s).2 ≤ measure s + n

namespace Adds

variable {measure : σ → Nat} {n k : Nat} {m : Exec σ ε α}

theorem pure (a : α) : Adds measure 0 (Pure.pure a : Exec σ ε α) := fun _ => Nat.le_refl _

theorem fail (e : ε) : Adds measure 0 (Exec.fail e : Exec σ ε α) := fun _ => Nat.le_refl _

theorem modify {f : σ → σ} (h : ∀ s, measure (f s) ≤ measure s + n) :
    Adds measure n (Exec.modify f : Exec σ ε Unit) := h

theorem call {f : σ → α × σ} (h : ∀ s, measure (f s).2 ≤ measure s + n) :
    Adds measure n (Exec.call f : Exec σ ε α) := h

theorem mono (hm : Adds measure n m) (hle : n ≤ k) : Adds measure k m := fun s =>
  Nat.le_trans (hm s) (Nat.add_le_add_left hle _)

theorem bind {f : α → Exec σ ε β} (hm : Adds measure n m) (hf : ∀ a, Adds measure k (f a)) :
    Adds measure (n + k) (m >>= f) := by
  intro s
  have hms := hm s
  rcases h : m s with ⟨e | a, s'⟩ <;> rw [h] at hms
  · rw [bind_of_error h]
    exact Nat.le_trans hms (Nat.add_le_add_left (Nat.le_add_right n k) _)
  · rw [bind_of_ok h]
    have hfs := hf a s'
    dsimp only at hms
    omega

theorem get_bind {f : σ → Exec σ ε β} (hf : ∀ s, Adds measure n (f s)) :
    Adds measure n (get >>= f) := fun s => hf s s

theorem attempt (hm : Adds measure n m) : Adds measure n (Exec.attempt m : Exec σ ε' (Except ε α)) := hm

theorem ite {c : Prop} [Decidable c] {m' : Exec σ ε α} (ht : c → Adds measure n m)
    (hf : ¬c → Adds measure n m') : Adds measure n (if c then m else m') := by
  split
  · exact ht ‹_›
  · exact hf ‹_›

/-- A computation on a part of the state adds what it adds to the part's measure. -/
theorem onPart {part : σ → τ} {put : τ → σ → σ} {inner : τ → Nat} {m : Exec τ ε α}
    (hm : Adds inner n m) (hpart : ∀ s, inner (part s) = measure s)
    (hput : ∀ t s, measure (put t s) = inner t) : Adds measure n (Exec.onPart part put m) := by
  intro s
  rw [onPart_run, hput, ← hpart]
  exact hm (part s)

end Adds

end Exec

end JevGrep.Lib
