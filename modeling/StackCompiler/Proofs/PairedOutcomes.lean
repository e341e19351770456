/-
**Outcomes that go together.**

Two computations are compared step by step: both fail, or both succeed with results that are in some
relation.  If every step of one goes together with the same step of the other, so do the whole
computations.

* `Paired.foldlM_collect`, `Paired.foldlM` — **two walks over lists go together if their steps do**.
-/

import Mathlib.Data.List.Forall2
import StackCompiler.Proofs.Outcomes

namespace StackCompiler

variable {ε ε' α β γ δ σ τ : Type}

/-- Two failures in a relation, or two results in a relation. -/
inductive Paired (E : ε → ε' → Prop) (R : α → β → Prop) : Except ε α → Except ε' β → Prop where
  | error {e : ε} {e' : ε'} (h : E e e') : Paired E R (.error e) (.error e')
  | ok {a : α} {b : β} (h : R a b) : Paired E R (.ok a) (.ok b)

/-- Two failures, or two results in a relation. -/
abbrev Together (R : α → β → Prop) : Except ε α → Except ε' β → Prop := Paired (fun _ _ => True) R

section Paired

variable {E : ε → ε' → Prop} {R : α → β → Prop} {S : γ → δ → Prop} {x : Except ε α}
  {y : Except ε' β}

theorem paired_iff : Paired E R x y ↔
    (∃ e e', x = .error e ∧ y = .error e' ∧ E e e') ∨ ∃ a b, x = .ok a ∧ y = .ok b ∧ R a b := by
  constructor
  · intro h
    cases h with
    | error he => exact .inl ⟨_, _, rfl, rfl, he⟩
    | ok hab => exact .inr ⟨_, _, rfl, rfl, hab⟩
  · rintro (⟨e, e', rfl, rfl, he⟩ | ⟨a, b, rfl, rfl, hab⟩)
    · exact .error he
    · exact .ok hab

theorem Paired.mono {E' : ε → ε' → Prop} {R' : α → β → Prop} (h : Paired E R x y)
    (hE : ∀ e e', E e e' → E' e e') (hR : ∀ a b, R a b → R' a b) : Paired E' R' x y := by
  cases h with
  | error he => exact .error (hE _ _ he)
  | ok hab => exact .ok (hR _ _ hab)

theorem Paired.symm (h : Paired E R x y) : Paired (fun e' e => E e e') (fun b a => R a b) y x := by
  cases h with
  | error he => exact .error he
  | ok hab => exact .ok hab

theorem Paired.trans {F : ε' → σ → Prop} {G : ε → σ → Prop} {S : β → γ → Prop} {T : α → γ → Prop}
    {z : Except σ γ} (h : Paired E R x y) (h' : Paired F S y z)
    (hG : ∀ e e' e'', E e e' → F e' e'' → G e e'') (hT : ∀ a b c, R a b → S b c → T a c) :
    Paired G T x z := by
  cases h with
  | error he =>
      cases h' with
      | error he' => exact .error (hG _ _ _ he he')
  | ok hab =>
      cases h' with
      | ok hbc => exact .ok (hT _ _ _ hab hbc)

/-- The result on the left is the one that there is. -/
theorem Paired.left (h : Paired E R x y) : Paired E (fun a b => x = .ok a ∧ R a b) x y := by
  cases h with
  | error he => exact .error he
  | ok hab => exact .ok ⟨rfl, hab⟩

theorem Paired.bind {f : α → Except ε γ} {g : β → Except ε' δ} (h : Paired E R x y)
    (hnext : ∀ a b, R a b → Paired E S (f a) (g b)) : Paired E S (x >>= f) (y >>= g) := by
  cases h with
  | error he => exact .error he
  | ok hab => exact hnext _ _ hab

theorem Paired.mapError {f : ε → σ} {g : ε' → τ} {F : σ → τ → Prop} (h : Paired E R x y)
    (hF : ∀ e e', E e e' → F (f e) (g e')) : Paired F R (x.mapError f) (y.mapError g) := by
  cases h with
  | error he => exact .error (hF _ _ he)
  | ok hab => exact .ok hab

/-- Two walks over lists that collect something on their way. -/
theorem Paired.foldlM_collect {f : α → γ → Except ε α} {g : β → δ → Except ε' β}
    {R : List σ → α → β → Prop} {k : γ → List σ} {Q : γ → δ → Prop} {xs : List γ}
    {ys : List δ} (hxs : List.Forall₂ Q xs ys)
    (hstep : ∀ x y, Q x y → ∀ cs a b, R cs a b → Paired E (R (cs ++ k x)) (f a x) (g b y))
    (cs : List σ) {a : α} {b : β} (hab : R cs a b) :
    Paired E (R (cs ++ xs.flatMap k)) (xs.foldlM f a) (ys.foldlM g b) := by
  induction hxs generalizing cs a b with
  | nil =>
      rw [List.flatMap_nil, List.append_nil]
      exact .ok hab
  | cons hxy _ ih =>
      rw [List.foldlM_cons, List.foldlM_cons, List.flatMap_cons, ← List.append_assoc]
      exact (hstep _ _ hxy cs a b hab).bind fun _ _ => ih _

/-- **Two walks over lists go together** if their steps do. -/
theorem Paired.foldlM {f : α → γ → Except ε α} {g : β → δ → Except ε' β} {Q : γ → δ → Prop}
    {xs : List γ} {ys : List δ} (hxs : List.Forall₂ Q xs ys)
    (hstep : ∀ x y, Q x y → ∀ a b, R a b → Paired E R (f a x) (g b y)) {a : α} {b : β}
    (hab : R a b) : Paired E R (xs.foldlM f a) (ys.foldlM g b) :=
  Paired.foldlM_collect (R := fun _ : List Unit => R) (k := fun _ => []) hxs
    (fun x y hxy _ => hstep x y hxy) [] hab

end Paired

section Together

variable {R : α → β → Prop} {x : Except ε α} {y : Except ε' β} {x' : Except σ α} {y' : Except τ β}

/-- Outcomes go together if each result on one side has its partner on the other. -/
theorem together_iff : Together R x y ↔
    (∀ a, x = .ok a → ∃ b, y = .ok b ∧ R a b) ∧ ∀ b, y = .ok b → ∃ a, x = .ok a ∧ R a b := by
  constructor
  · intro h
    cases h with
    | error _ => exact ⟨nofun, nofun⟩
    | ok hab => exact ⟨fun _ h => ⟨_, rfl, Except.ok.inj h ▸ hab⟩,
        fun _ h => ⟨_, rfl, Except.ok.inj h ▸ hab⟩⟩
  · rintro ⟨hleft, hright⟩
    cases x with
    | ok a =>
        obtain ⟨b, rfl, hab⟩ := hleft a rfl
        exact .ok hab
    | error e =>
        cases y with
        | error e' => exact .error trivial
        | ok b =>
            obtain ⟨a, ha, -⟩ := hright b rfl
            cases ha

/-- Only the results matter. -/
theorem Paired.congr (h : Together R x y) (hx : ∀ a, x' = .ok a ↔ x = .ok a)
    (hy : ∀ b, y' = .ok b ↔ y = .ok b) : Together R x' y' := by
  rw [together_iff] at h ⊢
  simpa only [hx, hy] using h

end Together

end StackCompiler
