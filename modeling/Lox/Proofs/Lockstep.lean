import Lox.Machine

/-!
# Two runs side by side

Two machines take corresponding steps from a pair of states, and the pair only changes in ways that
a preorder allows. What is shown of one step after another (`Runs.bind`) holds of the whole run: both
end well or both stop, and for related reasons.
-/

namespace Lox

/-- Pairs of states, how a pair may change, and which stops belong together; after an excused stop of
the left machine nothing is asked of the right one. -/
structure Pairing (σ τ : Type) where
  Pair : Type
  left : Pair → σ
  right : Pair → τ
  Leads : Pair → Pair → Prop
  refl : ∀ p, Leads p p
  trans : ∀ {p q r}, Leads p q → Leads q r → Leads p r
  Stops : Stop → Stop → Prop
  Excused : Stop → Prop

namespace Pairing

variable {σ τ α β γ δ : Type} (P : Pairing σ τ)

/-- From `p`, both steps end well, with results that `post` relates, or both stop for related
reasons; either way what `base` leads to is reached. -/
def RunsFrom (base p : P.Pair) (act : EStateM Stop σ α) (other : EStateM Stop τ β)
    (post : α → β → P.Pair → Prop) : Prop :=
  (∀ e s, act (P.left p) = .error e s → ¬ P.Excused e) →
    match act (P.left p), other (P.right p) with
    | .ok a s, .ok b t => ∃ q, P.left q = s ∧ P.right q = t ∧ P.Leads base q ∧ post a b q
    | .error e s, .error e' t => P.Stops e e' ∧ ∃ q, P.left q = s ∧ P.right q = t ∧ P.Leads base q
    | _, _ => False

def Runs (p : P.Pair) (act : EStateM Stop σ α) (other : EStateM Stop τ β)
    (post : α → β → P.Pair → Prop) : Prop :=
  P.RunsFrom p p act other post

variable {P} {base p : P.Pair} {act : EStateM Stop σ α} {other : EStateM Stop τ β}
  {post : α → β → P.Pair → Prop}

theorem RunsFrom.of_ok (q : P.Pair) {a : α} {b : β} (ha : act (P.left p) = .ok a (P.left q))
    (hb : other (P.right p) = .ok b (P.right q)) (hq : P.Leads base q) (hp : post a b q) :
    P.RunsFrom base p act other post := by
  intro _
  rw [ha, hb]
  exact ⟨q, rfl, rfl, hq, hp⟩

theorem Runs.of_ok (q : P.Pair) {a : α} {b : β} (ha : act (P.left p) = .ok a (P.left q))
    (hb : other (P.right p) = .ok b (P.right q)) (hq : P.Leads p q) (hp : post a b q) :
    P.Runs p act other post :=
  RunsFrom.of_ok q ha hb hq hp

theorem Runs.of_error {e e' : Stop} (ha : act (P.left p) = .error e (P.left p))
    (hb : other (P.right p) = .error e' (P.right p)) (he : P.Stops e e') :
    P.Runs p act other post := by
  intro _
  rw [ha, hb]
  exact ⟨he, p, rfl, rfl, P.refl p⟩

theorem Runs.pure {a : α} {b : β} (hp : post a b p) :
    P.Runs p (pure a) (pure b) post :=
  .of_ok p rfl rfl (P.refl p) hp

theorem Runs.throw {e e' : Stop} (he : P.Stops e e') :
    P.Runs p (throw e : EStateM Stop σ α) (throw e' : EStateM Stop τ β) post :=
  .of_error rfl rfl he

theorem Runs.since (h : P.Runs p act other post) (hb : P.Leads base p) :
    P.RunsFrom base p act other post := by
  intro hx
  have h := h hx
  split at h
  · obtain ⟨q, rfl, rfl, hq, hpost⟩ := h
    exact ⟨q, rfl, rfl, P.trans hb hq, hpost⟩
  · obtain ⟨he, q, rfl, rfl, hq⟩ := h
    exact ⟨he, q, rfl, rfl, P.trans hb hq⟩
  · exact h

theorem Runs.imp {post' : α → β → P.Pair → Prop} (h : P.Runs p act other post)
    (hp : ∀ a b q, P.Leads p q → post a b q → post' a b q) : P.Runs p act other post' := by
  intro hx
  have h := h hx
  split at h
  · obtain ⟨q, rfl, rfl, hq, hpost⟩ := h
    exact ⟨q, rfl, rfl, hq, hp _ _ _ hq hpost⟩
  · exact h
  · exact h

/-- Steps that do the same from this state. -/
theorem Runs.congr {act' : EStateM Stop σ α} {other' : EStateM Stop τ β}
    (h : P.Runs p act other post) (hl : act' (P.left p) = act (P.left p))
    (hr : other' (P.right p) = other (P.right p)) : P.Runs p act' other' post := by
  unfold Runs RunsFrom at h ⊢
  rwa [hl, hr]

theorem RunsFrom.bind {f : α → EStateM Stop σ γ} {g : β → EStateM Stop τ δ}
    {post' : γ → δ → P.Pair → Prop} (h : P.RunsFrom base p act other post)
    (hfg : ∀ a b q, P.Leads base q → post a b q → P.RunsFrom base q (f a) (g b) post') :
    P.RunsFrom base p (act >>= f) (other >>= g) post' := by
  intro hx
  simp only [Bind.bind, EStateM.bind] at hx ⊢
  have h := h fun e s he => hx e s (by rw [he])
  split at h
  · obtain ⟨q, rfl, rfl, hq, hpost⟩ := h
    simp only [*] at hx ⊢
    exact hfg _ _ q hq hpost hx
  · obtain ⟨he, q, rfl, rfl, hq⟩ := h
    simp only [*]
    exact ⟨trivial, q, rfl, rfl, hq⟩
  · exact h.elim

theorem Runs.bind {f : α → EStateM Stop σ γ} {g : β → EStateM Stop τ δ}
    {post' : γ → δ → P.Pair → Prop} (h : P.Runs p act other post)
    (hfg : ∀ a b q, P.Leads p q → post a b q → P.Runs q (f a) (g b) post') :
    P.Runs p (act >>= f) (other >>= g) post' :=
  RunsFrom.bind h fun a b q hq hp => (hfg a b q hq hp).since hq

/-- What the right machine makes of its result. -/
theorem RunsFrom.mapRight (f : β → δ) {g : β → EStateM Stop τ δ}
    {post' : α → δ → P.Pair → Prop} (h : P.RunsFrom base p act other post)
    (hg : ∀ b, g b = Pure.pure (f b)) (hp : ∀ a b q, P.Leads base q → post a b q → post' a (f b) q) :
    P.RunsFrom base p act (other >>= g) post' := by
  intro hx
  have h := h hx
  simp only [Bind.bind, EStateM.bind]
  split at h
  · obtain ⟨q, rfl, rfl, hq, hpost⟩ := h
    simp only [*]
    exact ⟨q, rfl, rfl, hq, hp _ _ q hq hpost⟩
  · obtain ⟨he, q, rfl, rfl, hq⟩ := h
    simp only [*]
    exact ⟨trivial, q, rfl, rfl, hq⟩
  · exact h.elim

/-- A step of the right machine alone. -/
theorem RunsFrom.right {g : β → EStateM Stop τ δ} {post' : α → δ → P.Pair → Prop} (q : P.Pair)
    {b : β} (hl : P.left q = P.left p) (hr : other (P.right p) = .ok b (P.right q))
    (h : P.RunsFrom base q act (g b) post') :
    P.RunsFrom base p act (other >>= g) post' := by
  unfold RunsFrom at h ⊢
  simp only [Bind.bind, EStateM.bind, hr, ← hl]
  exact h

/-- A question that the left machine alone asks of its state. -/
theorem RunsFrom.left {f : α → EStateM Stop σ γ} {post' : γ → β → P.Pair → Prop} {a : α}
    (hl : act (P.left p) = .ok a (P.left p)) (h : P.RunsFrom base p (f a) other post') :
    P.RunsFrom base p (act >>= f) other post' := by
  unfold RunsFrom at h ⊢
  simp only [Bind.bind, EStateM.bind, hl]
  exact h

end Pairing

end Lox
