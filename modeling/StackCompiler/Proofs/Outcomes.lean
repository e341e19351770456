/-
**Computations that succeed or fail.**

Decoding, lowering and assembling can fail, and are written as computations that stop at the first
failure.  What such a computation returns is found by going back over its steps: each of them has
succeeded, and its result went into the next one.  If it fails, one step has failed, and all before
it have succeeded.

* `bind_ok_iff`, `map_ok_iff`, `mapError_ok_iff` — success of a computation in steps;
* `foldlM_append_ok_iff` — success of a walk over a list, which can be interrupted at any place;
* `foldlM_keeps`, `foldlM_follows` — what holds behind a walk, and a second walk beside it;
* `foldlM_error_iff` — failure of a walk over a list, at one of its steps.
-/

namespace StackCompiler

variable {ε ε' α β γ : Type}

theorem ok_bind (a : α) (f : α → Except ε β) : (.ok a : Except ε α) >>= f = f a := rfl

variable {x : Except ε α} {b : β} {f : β → α → Except ε β} {xs : List α}

theorem bind_ok_iff {f : α → Except ε β} : x >>= f = .ok b ↔ ∃ a, x = .ok a ∧ f a = .ok b := by
  cases x with
  | error e => simp [bind, Except.bind]
  | ok a => simp [bind, Except.bind]

theorem map_ok_iff {f : α → β} : x.map f = .ok b ↔ ∃ a, x = .ok a ∧ f a = b := by
  cases x with
  | error e => simp [Except.map]
  | ok a => simp [Except.map]

theorem mapError_ok_iff {f : ε → ε'} {a : α} : x.mapError f = .ok a ↔ x = .ok a := by
  cases x with
  | error e => exact ⟨nofun, nofun⟩
  | ok b => exact ⟨fun h => congrArg _ (Except.ok.inj h), fun h => congrArg _ (Except.ok.inj h)⟩

theorem isOk_iff : x.isOk = true ↔ ∃ a, x = .ok a := by
  cases x with
  | error e => simp [Except.isOk, Except.toBool]
  | ok a => simp [Except.isOk, Except.toBool]

theorem pure_ok_iff {a b : α} : (pure a : Except ε α) = .ok b ↔ a = b :=
  ⟨Except.ok.inj, congrArg Except.ok⟩

theorem bind_pure_ok_iff {f : α → β} :
    (x >>= fun a => pure (f a)) = .ok b ↔ ∃ a, x = .ok a ∧ f a = b := by
  rw [bind_ok_iff]
  simp only [pure_ok_iff]

variable {c : β}

theorem foldlM_cons_ok_iff {x : α} :
    (x :: xs).foldlM f b = .ok c ↔ ∃ d, f b x = .ok d ∧ xs.foldlM f d = .ok c := by
  rw [List.foldlM_cons]
  exact bind_ok_iff

/-- **A walk over a list can be interrupted at any place.** -/
theorem foldlM_append_ok_iff {ys : List α} :
    (xs ++ ys).foldlM f b = .ok c ↔ ∃ d, xs.foldlM f b = .ok d ∧ ys.foldlM f d = .ok c := by
  rw [List.foldlM_append]
  exact bind_ok_iff

theorem foldlM_nil_ok_iff : [].foldlM f b = .ok c ↔ b = c := by
  rw [List.foldlM_nil]
  exact pure_ok_iff

theorem foldlM_ok_step (h : xs.foldlM f b = .ok c) {x : α} (hx : x ∈ xs) :
    ∃ d d', f d x = .ok d' := by
  obtain ⟨ys, zs, rfl⟩ := List.append_of_mem hx
  obtain ⟨d, -, h⟩ := foldlM_append_ok_iff.1 h
  obtain ⟨d', hd', -⟩ := foldlM_cons_ok_iff.1 h
  exact ⟨d, d', hd'⟩

theorem foldlM_ok_of_steps (h : ∀ b, ∀ x ∈ xs, ∃ c, f b x = .ok c) (b : β) :
    ∃ c, xs.foldlM f b = .ok c := by
  induction xs generalizing b with
  | nil => exact ⟨b, rfl⟩
  | cons x xs ih =>
      obtain ⟨d, hd⟩ := h b x List.mem_cons_self
      obtain ⟨c, hc⟩ := ih (fun b y hy => h b y (List.mem_cons_of_mem x hy)) d
      exact ⟨c, foldlM_cons_ok_iff.2 ⟨d, hd, hc⟩⟩

/-- **What every step keeps holds behind a walk.** -/
theorem foldlM_keeps {P : β → Prop} (hstep : ∀ {d d' x}, P d → f d x = .ok d' → P d') (hb : P b)
    (h : xs.foldlM f b = .ok c) : P c := by
  induction xs generalizing b with
  | nil =>
      obtain rfl := foldlM_nil_ok_iff.1 h
      exact hb
  | cons x xs ih =>
      obtain ⟨d, hd, h⟩ := foldlM_cons_ok_iff.1 h
      exact ih (hstep hb hd) h

/-- **A walk is followed by another one** that can follow each of its steps. -/
theorem foldlM_follows {g : γ → α → Except ε' γ} {R : β → γ → Prop} {e : γ}
    (hstep : ∀ {d d' e x}, R d e → f d x = .ok d' → ∃ e', g e x = .ok e' ∧ R d' e') (hb : R b e)
    (h : xs.foldlM f b = .ok c) : ∃ e', xs.foldlM g e = .ok e' ∧ R c e' := by
  induction xs generalizing b e with
  | nil =>
      obtain rfl := foldlM_nil_ok_iff.1 h
      exact ⟨e, rfl, hb⟩
  | cons x xs ih =>
      obtain ⟨d, hd, h⟩ := foldlM_cons_ok_iff.1 h
      obtain ⟨d', hd', hrest⟩ := hstep hb hd
      obtain ⟨e', he', hc⟩ := ih hrest h
      exact ⟨e', foldlM_cons_ok_iff.2 ⟨d', hd', he'⟩, hc⟩

/-- Saying where a step failed does not change what a walk returns. -/
theorem foldlM_mapError_ok_iff {g : α → ε → ε'} :
    xs.foldlM (fun b x => (f b x).mapError (g x)) b = .ok c ↔ xs.foldlM f b = .ok c := by
  induction xs generalizing b with
  | nil => rw [foldlM_nil_ok_iff, foldlM_nil_ok_iff]
  | cons x xs ih => simp only [foldlM_cons_ok_iff, mapError_ok_iff, ih]

theorem mapM_cons_ok_iff {f : α → Except ε β} {x : α} {bs : List β} :
    (x :: xs).mapM f = .ok bs ↔ ∃ b bs', f x = .ok b ∧ xs.mapM f = .ok bs' ∧ bs = b :: bs' := by
  rw [List.mapM_cons, bind_ok_iff]
  constructor
  · rintro ⟨b, hb, h⟩
    obtain ⟨bs', hbs, h⟩ := bind_ok_iff.1 h
    exact ⟨b, bs', hb, hbs, (pure_ok_iff.1 h).symm⟩
  · rintro ⟨b, bs', hb, hbs, rfl⟩
    exact ⟨b, hb, bind_ok_iff.2 ⟨bs', hbs, rfl⟩⟩

/-! ### Failures -/

variable {e : ε}

theorem bind_error_iff {f : α → Except ε β} :
    x >>= f = .error e ↔ x = .error e ∨ ∃ a, x = .ok a ∧ f a = .error e := by
  cases x with
  | error e' => simp [bind, Except.bind]
  | ok a => simp [bind, Except.bind]

theorem map_error_iff {f : α → β} : x.map f = .error e ↔ x = .error e := by
  cases x with
  | error e' => simp [Except.map]
  | ok a => simp [Except.map]

theorem mapError_error_iff {f : ε → ε'} {e' : ε'} :
    x.mapError f = .error e' ↔ ∃ e, x = .error e ∧ f e = e' := by
  cases x with
  | error e =>
      constructor
      · exact fun h => ⟨e, rfl, Except.error.inj h⟩
      · rintro ⟨e₁, he, rfl⟩
        rw [Except.error.inj he]
        rfl
  | ok a => exact ⟨nofun, nofun⟩

/-- **A walk over a list fails at one of its steps.** -/
theorem foldlM_error_iff :
    xs.foldlM f b = .error e ↔
      ∃ ys x zs c, xs = ys ++ x :: zs ∧ ys.foldlM f b = .ok c ∧ f c x = .error e := by
  constructor
  · intro h
    induction xs generalizing b with
    | nil => cases h
    | cons x xs ih =>
        rw [List.foldlM_cons] at h
        rcases bind_error_iff.1 h with h | ⟨d, hd, h⟩
        · exact ⟨[], x, xs, b, rfl, rfl, h⟩
        · obtain ⟨ys, y, zs, c, rfl, hys, hy⟩ := ih h
          exact ⟨x :: ys, y, zs, c, rfl, foldlM_cons_ok_iff.2 ⟨d, hd, hys⟩, hy⟩
  · rintro ⟨ys, x, zs, c, rfl, hys, hx⟩
    rw [List.foldlM_append]
    refine bind_error_iff.2 (.inr ⟨c, hys, ?_⟩)
    rw [List.foldlM_cons]
    exact bind_error_iff.2 (.inl hx)

/-- A computation for each member of a list fails at one of them. -/
theorem mapM_error_iff {f : α → Except ε β} :
    xs.mapM f = .error e ↔
      ∃ ys x zs bs, xs = ys ++ x :: zs ∧ ys.mapM f = .ok bs ∧ f x = .error e := by
  constructor
  · intro h
    induction xs with
    | nil => cases h
    | cons x xs ih =>
        rw [List.mapM_cons] at h
        rcases bind_error_iff.1 h with h | ⟨b, hb, h⟩
        · exact ⟨[], x, xs, [], rfl, rfl, h⟩
        rcases bind_error_iff.1 h with h | ⟨bs, -, h⟩
        · obtain ⟨ys, y, zs, bs, rfl, hys, hy⟩ := ih h
          exact ⟨x :: ys, y, zs, b :: bs, rfl, mapM_cons_ok_iff.2 ⟨b, bs, hb, hys, rfl⟩, hy⟩
        · cases h
  · rintro ⟨ys, x, zs, bs, rfl, hys, hx⟩
    rw [List.mapM_append, hys, ok_bind, List.mapM_cons, hx]
    rfl

end StackCompiler
