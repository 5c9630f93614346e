/-
# `JevGrep.Lib.Simulation` — one computation that does what another one says.

`Simulates` relates a computation to a simpler one over a state of its own, the plan. Where the plan ends
well the computation ends well in a related state; where the plan fails, a second relation says how the
computation ends. That relation may leave the computation room to go on after the plan has given up, so
the rules for what comes behind ask that it survives. §1 the relation; §2 one rule for each operation.
-/
import JevGrep.Lib.Exec

namespace JevGrep.Lib.Exec

variable {σ σ' τ τ' ε ε' δ δ' α β γ κ : Type}

/-! ## §1 — the relation. -/

/-- The error of an outcome. -/
def failure : Except ε α → Option ε
  | .ok _ => none
  | .error e => some e

/-- From related states `m` ends as `p` says: well where `p` does, by `E` where `p` fails. -/
def Simulates (R : σ → τ → Prop) (m : Exec σ ε α) (p : Exec τ δ β) (Q : α → β → σ → τ → Prop)
    (E : Option ε → δ → σ → τ → Prop) : Prop :=
  ∀ s t, R s t → match p t with
    | (.ok b, t') => ∃ a s', m s = (.ok a, s') ∧ Q a b s' t'
    | (.error d, t') => E (failure (m s).1) d (m s).2 t'

namespace Simulates

variable {R R' : σ → τ → Prop} {Q Q₁ : α → β → σ → τ → Prop} {E E₁ : Option ε → δ → σ → τ → Prop}

theorem ok {m : Exec σ ε α} {p : Exec τ δ β} (h : Simulates R m p Q E) {s : σ} {t t' : τ} {b : β}
    (hs : R s t) (hp : p t = (.ok b, t')) : ∃ a s', m s = (.ok a, s') ∧ Q a b s' t' := by
  have := h s t hs
  rwa [hp] at this

theorem error {m : Exec σ ε α} {p : Exec τ δ β} (h : Simulates R m p Q E) {s : σ} {t t' : τ} {d : δ}
    (hs : R s t) (hp : p t = (.error d, t')) : E (failure (m s).1) d (m s).2 t' := by
  have := h s t hs
  rwa [hp] at this

theorem con {m : Exec σ ε α} {p : Exec τ δ β} (hpre : ∀ s t, R s t → R' s t)
    (h : Simulates R' m p Q₁ E₁) (hok : ∀ a b s t, Q₁ a b s t → Q a b s t)
    (herr : ∀ o d s t, E₁ o d s t → E o d s t) : Simulates R m p Q E := by
  intro s t hs
  have := h s t (hpre s t hs)
  rcases hp : p t with ⟨d | b, t'⟩ <;> rw [hp] at this
  · exact herr _ d _ t' this
  · obtain ⟨a, s', hm, hq⟩ := this
    exact ⟨a, s', hm, hok a b s' t' hq⟩

theorem con_pre {m : Exec σ ε α} {p : Exec τ δ β} (hpre : ∀ s t, R s t → R' s t)
    (h : Simulates R' m p Q E) : Simulates R m p Q E := fun s t hs => h s t (hpre s t hs)

/-- What every run starts from may be assumed. -/
theorem of_pre {m : Exec σ ε α} {p : Exec τ δ β} {c : Prop} (hpre : ∀ s t, R s t → c)
    (h : c → Simulates R m p Q E) : Simulates R m p Q E := fun s t hs => h (hpre s t hs) s t hs

/-! ## §2 — the operations. -/

theorem pure {a : α} {b : β} (h : ∀ s t, R s t → Q a b s t) :
    Simulates R (Pure.pure a) (Pure.pure b) Q E := fun s t hs => ⟨a, s, rfl, h s t hs⟩

theorem fail {e : ε} {d : δ} (h : ∀ s t, R s t → E (some e) d s t) :
    Simulates R (Exec.fail e : Exec σ ε α) (Exec.fail d : Exec τ δ β) Q E := h

theorem modify {f : σ → σ} {g : τ → τ} {Q : Unit → Unit → σ → τ → Prop}
    (h : ∀ s t, R s t → Q () () (f s) (g t)) : Simulates R (Exec.modify f) (Exec.modify g) Q E :=
  fun s t hs => ⟨(), f s, rfl, h s t hs⟩

/-- One after the other. What the plan has given up must survive what comes behind. -/
theorem bind {m : Exec σ ε α} {p : Exec τ δ β} {f : α → Exec σ ε γ} {q : β → Exec τ δ κ}
    {Q' : γ → κ → σ → τ → Prop} (hm : Simulates R m p Q E)
    (hf : ∀ a b, Simulates (Q a b) (f a) (q b) Q' E)
    (hlost : ∀ a d s t, E none d s t → E (failure (f a s).1) d (f a s).2 t) :
    Simulates R (m >>= f) (p >>= q) Q' E := by
  intro s t hs
  rcases hp : p t with ⟨d | b, t₁⟩
  · have herr := hm.error hs hp
    rw [bind_of_error hp]
    rcases h : m s with ⟨e | a, s₁⟩ <;> rw [h] at herr
    · rw [bind_of_error h]
      exact herr
    · -- the plan has failed where `m` goes on
      rw [bind_of_ok h]
      exact hlost a d s₁ t₁ herr
  · obtain ⟨a, s₁, h, hq⟩ := hm.ok hs hp
    rw [bind_of_ok hp, bind_of_ok h]
    exact hf a b s₁ t₁ hq

/-- The states read are the states the rest starts from. -/
theorem get_bind {f : σ → Exec σ ε α} {q : τ → Exec τ δ β}
    (h : ∀ s t, R s t → Simulates (fun s' t' => s' = s ∧ t' = t) (f s) (q t) Q E) :
    Simulates R (get >>= f) (get >>= q) Q E := fun s t hs => h s t hs s t ⟨rfl, rfl⟩

/-- A read of the computation's state alone. -/
theorem get_left {f : σ → Exec σ ε α} {p : Exec τ δ β}
    (h : ∀ s t, R s t → Simulates (fun s' t' => s' = s ∧ t' = t) (f s) p Q E) :
    Simulates R (get >>= f) p Q E := fun s t hs => h s t hs s t ⟨rfl, rfl⟩

/-- A part that always ends well and that the plan does not have. -/
theorem silent {m : Exec σ ε γ} {f : γ → Exec σ ε α} {p : Exec τ δ β} {U : γ → σ → τ → Prop}
    (hm : ∀ s t, R s t → ∃ c s₁, m s = (.ok c, s₁) ∧ U c s₁ t)
    (hf : ∀ c, Simulates (U c) (f c) p Q E) : Simulates R (m >>= f) p Q E := by
  intro s t hs
  obtain ⟨c, s₁, h, hr⟩ := hm s t hs
  have hrest := hf c s₁ t hr
  have heq : (m >>= f) s = f c s₁ := bind_of_ok h
  rwa [← heq] at hrest

theorem ite {c : Prop} [Decidable c] {m m' : Exec σ ε α} {p p' : Exec τ δ β}
    (ht : c → Simulates R m p Q E) (hf : ¬c → Simulates R m' p' Q E) :
    Simulates R (if c then m else m') (if c then p else p') Q E := by
  by_cases h : c
  · rw [if_pos h, if_pos h]
    exact ht h
  · rw [if_neg h, if_neg h]
    exact hf h

/-- A part whose failure is looked at, on the side of the computation only. -/
theorem attempt_bind {m : Exec σ ε' γ} {p : Exec τ δ κ} {f : Except ε' γ → Exec σ ε α}
    {q : κ → Exec τ δ β} {Q₀ : γ → κ → σ → τ → Prop} {E₀ : Option ε' → δ → σ → τ → Prop}
    (hm : Simulates R m p Q₀ E₀) (hf : ∀ a b, Simulates (Q₀ a b) (f (.ok a)) (q b) Q E)
    (herr : ∀ o d s t, E₀ (failure o) d s t → E (failure (f o s).1) d (f o s).2 t) :
    Simulates R (attempt m >>= f) (p >>= q) Q E := by
  intro s t hs
  have hattempt : (attempt m : Exec σ ε (Except ε' γ)) s = (.ok (m s).1, (m s).2) := rfl
  rw [bind_of_ok hattempt]
  rcases hp : p t with ⟨d | b, t₁⟩
  · rw [bind_of_error hp]
    exact herr _ d _ t₁ (hm.error hs hp)
  · obtain ⟨a, s₁, h, hq⟩ := hm.ok hs hp
    rw [bind_of_ok hp, h]
    exact hf a b s₁ t₁ hq

/-- A part whose failure is looked at on both sides. -/
theorem attempt_both {m : Exec σ ε' γ} {p : Exec τ δ' κ} {f : Except ε' γ → Exec σ ε α}
    {q : Except δ' κ → Exec τ δ β} {Q₀ : γ → κ → σ → τ → Prop} {E₀ : Option ε' → δ' → σ → τ → Prop}
    (hm : Simulates R m p Q₀ E₀) (hf : ∀ a b, Simulates (Q₀ a b) (f (.ok a)) (q (.ok b)) Q E)
    (herr : ∀ o d, Simulates (E₀ (failure o) d) (f o) (q (.error d)) Q E) :
    Simulates R (attempt m >>= f) (attempt p >>= q) Q E := by
  intro s t hs
  have hattempt : (attempt m : Exec σ ε (Except ε' γ)) s = (.ok (m s).1, (m s).2) := rfl
  have hplan : (attempt p : Exec τ δ (Except δ' κ)) t = (.ok (p t).1, (p t).2) := rfl
  rw [bind_of_ok hattempt, bind_of_ok hplan]
  rcases hp : p t with ⟨d | b, t₁⟩
  · exact herr _ d _ t₁ (hm.error hs hp)
  · obtain ⟨a, s₁, h, hq⟩ := hm.ok hs hp
    rw [h]
    exact hf a b s₁ t₁ hq

/-- Both work on a part of their states. -/
theorem onPart {part : σ → σ'} {put : σ' → σ → σ} {part' : τ → τ'} {put' : τ' → τ → τ}
    {m : Exec σ' ε α} {p : Exec τ' δ β} {R₀ : σ' → τ' → Prop} {Q₀ : α → β → σ' → τ' → Prop}
    {E₀ : Option ε → δ → σ' → τ' → Prop} (h : Simulates R₀ m p Q₀ E₀)
    (hpre : ∀ s t, R s t → R₀ (part s) (part' t))
    (hok : ∀ s t a b u v, R s t → Q₀ a b u v → Q a b (put u s) (put' v t))
    (herr : ∀ s t o d u v, R s t → E₀ o d u v → E o d (put u s) (put' v t)) :
    Simulates R (Exec.onPart part put m) (Exec.onPart part' put' p) Q E := by
  intro s t hs
  have hm := h (part s) (part' t) (hpre s t hs)
  show match ((p (part' t)).1, put' (p (part' t)).2 t) with
    | (.ok b, t') => ∃ a s', ((m (part s)).1, put (m (part s)).2 s) = (.ok a, s') ∧ Q a b s' t'
    | (.error d, t') => E (failure (m (part s)).1) d (put (m (part s)).2 s) t'
  rcases hp : p (part' t) with ⟨d | b, v⟩ <;> rw [hp] at hm
  · exact herr s t _ d _ v hs hm
  · obtain ⟨a, u, hrun, hq⟩ := hm
    rw [hrun]
    exact ⟨a, put u s, rfl, hok s t a b u v hs hq⟩

end Simulates

end JevGrep.Lib.Exec
