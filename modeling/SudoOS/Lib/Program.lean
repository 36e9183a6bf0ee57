import Mathlib

/-!
Programs over a mutable state that may fail part-way (`EStateM`), with weakest preconditions. A failure keeps the state it
was raised in, so what a caller sees after an error is part of the meaning of the program.
-/

namespace Program

variable {ε ε' σ τ α β : Type}

/-- From `s`, a normal end of `x` meets `Q` and a failure meets `E`. -/
def wp (x : EStateM ε σ α) (s : σ) (Q : α → σ → Prop) (E : ε → σ → Prop) : Prop :=
  match x s with
  | .ok a t => Q a t
  | .error e t => E e t

/-- What ends a program early: an error that it returns, or a panic. -/
inductive Stop (ε π : Type)
  | error (e : ε)
  | panic (p : π)
deriving DecidableEq

/-- The program came back with an error. -/
def Stop.IsError {π : Type} (e : Stop ε π) : Prop := ∃ error, e = .error error

/-- The value of an `Option`, or a failure in the current state. -/
def okOr (o : Option α) (e : ε) : EStateM ε σ α :=
  match o with
  | some a => pure a
  | none => throw e

/-- An assertion: the program goes on if `c` holds and panics otherwise. -/
def require {π : Type} (c : Prop) [Decidable c] (p : π) : EStateM (Stop ε π) σ Unit :=
  if c then pure () else throw (.panic p)

/-- An assertion of a program whose only failures are panics. -/
def ensure (c : Prop) [Decidable c] (e : ε) : EStateM ε σ Unit := if c then pure () else throw e

/-- A program that is run under a condition, before what comes next. -/
def given (b : Bool) (x : EStateM ε σ Unit) : EStateM ε σ Unit := if b then x else pure ()

/-- Runs a program on one component of a larger state and puts the component back, also when it fails. -/
def zoom (proj : σ → τ) (put : τ → σ → σ) (wrap : ε → ε') (x : EStateM ε τ α) : EStateM ε' σ α := fun s =>
  match x (proj s) with
  | .ok a t => .ok a (put t s)
  | .error e t => .error (wrap e) (put t s)

/-- Runs `undo` on the state a failure leaves behind; the failure itself goes on. -/
def onError (x : EStateM ε σ α) (undo : σ → σ) : EStateM ε σ α := fun s =>
  match x s with
  | .ok a t => .ok a t
  | .error e t => .error e (undo t)

/-- Runs a program on one component and hands its failure on as a value. -/
def attempt (proj : σ → τ) (put : τ → σ → σ) (x : EStateM ε τ α) : EStateM ε' σ (Except ε α) := fun s =>
  match x (proj s) with
  | .ok a t => .ok (.ok a) (put t s)
  | .error e t => .ok (.error e) (put t s)

section rules
variable {s t : σ} {a : α} {e : ε} {x : EStateM ε σ α} {f : α → EStateM ε σ β} {Q Q' : α → σ → Prop} {E E' : ε → σ → Prop}
  {R : β → σ → Prop}

theorem wp_iff : wp x s Q E ↔ (∀ a t, x s = .ok a t → Q a t) ∧ ∀ e t, x s = .error e t → E e t := by
  unfold wp
  cases x s <;> simp

theorem wp_true : wp x s (fun _ _ => True) (fun _ _ => True) := wp_iff.2 ⟨fun _ _ _ => trivial, fun _ _ _ => trivial⟩

theorem wp.ok (h : wp x s Q E) (hx : x s = .ok a t) : Q a t := (wp_iff.1 h).1 a t hx

theorem wp.error (h : wp x s Q E) (hx : x s = .error e t) : E e t := (wp_iff.1 h).2 e t hx

theorem wp_of_ok (hx : x s = .ok a t) : wp x s Q E ↔ Q a t := by
  unfold wp
  rw [hx]

theorem wp_of_error (hx : x s = .error e t) : wp x s Q E ↔ E e t := by
  unfold wp
  rw [hx]

/-- The program comes back, with a value or with an error. -/
def Returns {π : Type} (x : EStateM (Stop ε π) σ α) (s : σ) : Prop := wp x s (fun _ _ => True) fun e _ => e.IsError

/-- A program that cannot fail returns. -/
theorem wp.total (h : wp x s Q fun _ _ => False) : ∃ a t, x s = .ok a t ∧ Q a t := by
  cases hx : x s with
  | ok a t => exact ⟨a, t, rfl, h.ok hx⟩
  | error e t => exact (h.error hx).elim

theorem wp.mono (h : wp x s Q E) (hQ : ∀ a t, Q a t → Q' a t) (hE : ∀ e t, E e t → E' e t) : wp x s Q' E' := by
  rw [wp_iff] at h ⊢
  exact ⟨fun a t hx => hQ a t (h.1 a t hx), fun e t hx => hE e t (h.2 e t hx)⟩

theorem wp.and (h : wp x s Q E) (h' : wp x s Q' E') :
    wp x s (fun a t => Q a t ∧ Q' a t) (fun e t => E e t ∧ E' e t) := by
  rw [wp_iff] at h h' ⊢
  exact ⟨fun a t hx => ⟨h.1 a t hx, h'.1 a t hx⟩, fun e t hx => ⟨h.2 e t hx, h'.2 e t hx⟩⟩

@[simp] theorem wp_pure : wp (pure a : EStateM ε σ α) s Q E ↔ Q a s := Iff.rfl

@[simp] theorem wp_throw : wp (throw e : EStateM ε σ α) s Q E ↔ E e s := Iff.rfl

@[simp] theorem wp_get {Q : σ → σ → Prop} : wp (get : EStateM ε σ σ) s Q E ↔ Q s s := Iff.rfl

@[simp] theorem wp_set {Q : PUnit → σ → Prop} : wp (set t : EStateM ε σ PUnit) s Q E ↔ Q ⟨⟩ t := Iff.rfl

@[simp] theorem wp_modify {g : σ → σ} {Q : PUnit → σ → Prop} : wp (modify g : EStateM ε σ PUnit) s Q E ↔ Q ⟨⟩ (g s) :=
  Iff.rfl

@[simp] theorem wp_bind : wp (x >>= f) s R E ↔ wp x s (fun a t => wp (f a) t R E) E := by
  simp only [wp, bind, EStateM.bind]
  cases x s <;> rfl

@[simp] theorem wp_map {g : α → β} : wp (g <$> x) s R E ↔ wp x s (fun a t => R (g a) t) E := by
  simp only [wp, Functor.map, EStateM.map]
  cases x s <;> rfl

@[simp] theorem wp_discard {Q : PUnit → σ → Prop} : wp (discard x) s Q E ↔ wp x s (fun _ t => Q ⟨⟩ t) E := by
  rw [show discard x = (fun _ => PUnit.unit) <$> x from rfl, wp_map]

@[simp] theorem wp_ite {c : Prop} [Decidable c] {y : EStateM ε σ α} :
    wp (if c then x else y) s Q E ↔ (c → wp x s Q E) ∧ (¬c → wp y s Q E) := by
  split <;> simp [*]

@[simp] theorem wp_given {b : Bool} {y : EStateM ε σ Unit} {Q : Unit → σ → Prop} :
    wp (given b y) s Q E ↔ (b = true → wp y s Q E) ∧ (¬ b = true → Q () s) := by
  rw [given, wp_ite, wp_pure]

@[simp] theorem wp_okOr {o : Option α} :
    wp (okOr o e) s Q E ↔ (∀ a, o = some a → Q a s) ∧ (o = none → E e s) := by
  cases o <;> simp [okOr]

theorem wp_okOr_of_eq {o : Option α} (h : o = some a) : wp (okOr o e) s Q E ↔ Q a s := by
  rw [h]
  exact wp_pure

@[simp] theorem wp_require {π : Type} {c : Prop} [Decidable c] {p : π} {Q : Unit → σ → Prop} {E : Stop ε π → σ → Prop} :
    wp (require c p) s Q E ↔ (c → Q () s) ∧ (¬c → E (.panic p) s) := by
  rw [require, wp_ite, wp_pure, wp_throw]

@[simp] theorem wp_ensure {c : Prop} [Decidable c] {Q : Unit → σ → Prop} :
    wp (ensure c e) s Q E ↔ (c → Q () s) ∧ (¬c → E e s) := by
  rw [ensure, wp_ite, wp_pure, wp_throw]

@[simp] theorem wp_ofExcept {o : Except ε α} :
    wp (ofExcept o : EStateM ε σ α) s Q E ↔ (∀ a, o = .ok a → Q a s) ∧ ∀ e, o = .error e → E e s := by
  cases o <;> simp [ofExcept]

theorem wp_ofExcept_ok : wp (ofExcept (.ok a) : EStateM ε σ α) s Q E ↔ Q a s := Iff.rfl

@[simp] theorem wp_zoom {proj : σ → τ} {put : τ → σ → σ} {wrap : ε → ε'} {y : EStateM ε τ α} {E : ε' → σ → Prop} :
    wp (zoom proj put wrap y) s Q E ↔
      wp y (proj s) (fun a t => Q a (put t s)) (fun e t => E (wrap e) (put t s)) := by
  simp only [wp, zoom]
  cases y (proj s) <;> rfl

@[simp] theorem wp_onError {undo : σ → σ} : wp (onError x undo) s Q E ↔ wp x s Q (fun e t => E e (undo t)) := by
  simp only [wp, onError]
  cases x s <;> rfl

@[simp] theorem wp_attempt {proj : σ → τ} {put : τ → σ → σ} {y : EStateM ε τ α} {Q : Except ε α → σ → Prop}
    {E : ε' → σ → Prop} :
    wp (attempt proj put y) s Q E ↔ wp y (proj s) (fun a t => Q (.ok a) (put t s)) (fun e t => Q (.error e) (put t s)) := by
  simp only [wp, attempt]
  cases y (proj s) <;> rfl

/-! ### Loops -/

/-- A loop over a list; the invariant speaks of what is left of it. -/
theorem wp_forM {ι : Type} {l : List ι} {f : ι → EStateM ε σ PUnit} (I : List ι → σ → Prop)
    (step : ∀ i rest t, I (i :: rest) t → wp (f i) t (fun _ u => I rest u) E) (h : I l s) :
    wp (l.forM f) s (fun _ t => I [] t) E := by
  induction l generalizing s with
  | nil => exact wp_pure.2 h
  | cons i rest ih =>
    rw [List.forM_eq_forM, List.forM_cons, wp_bind]
    exact (step i rest s h).mono (fun _ t ht => ih ht) fun _ _ h => h

/-- Where a loop fails: what comes before has gone through. -/
theorem forM_eq_error {ι : Type} {l : List ι} {f : ι → EStateM ε σ PUnit} : l.forM f s = .error e t ↔
    ∃ before i after u, l = before ++ i :: after ∧ before.forM f s = .ok ⟨⟩ u ∧ f i u = .error e t := by
  induction l generalizing s with
  | nil => exact ⟨fun h => (nomatch h), fun ⟨before, _, _, _, h, _⟩ => by simp at h⟩
  | cons j rest ih =>
    rw [List.forM_eq_forM, List.forM_cons]
    have hbind (k : EStateM ε σ PUnit) : (f j >>= fun _ => k) s = match f j s with
      | .ok _ u => k u
      | .error e u => .error e u := by
      change EStateM.bind _ _ s = _
      unfold EStateM.bind
      cases f j s <;> rfl
    rw [hbind]
    constructor
    · intro h
      cases hj : f j s with
      | error e' u =>
        rw [hj] at h
        cases h
        exact ⟨[], j, rest, s, rfl, rfl, hj⟩
      | ok _ u =>
        rw [hj] at h
        obtain ⟨before, i, after, v, rfl, hbefore, hi⟩ := ih.1 h
        refine ⟨j :: before, i, after, v, rfl, ?_, hi⟩
        rw [List.forM_cons, hbind, hj]
        exact hbefore
    · rintro ⟨before, i, after, v, hl, hbefore, hi⟩
      cases before with
      | nil =>
        cases hl
        cases hbefore
        rw [hi]
      | cons k before =>
        cases hl
        rw [List.forM_cons, hbind] at hbefore
        cases hj : f j s with
        | error e' u =>
          rw [hj] at hbefore
          cases hbefore
        | ok _ u =>
          rw [hj] at hbefore
          exact ih.2 ⟨before, i, after, v, rfl, hbefore, hi⟩

theorem wp_forM_check {ι : Type} {l : List ι} {f : ι → EStateM ε σ PUnit} {P : ι → Prop}
    (h : ∀ i ∈ l, wp (f i) s (fun _ t => t = s ∧ P i) E) :
    wp (l.forM f) s (fun _ t => t = s ∧ ∀ i ∈ l, P i) E := by
  induction l with
  | nil => exact wp_pure.2 ⟨rfl, fun i hi => (nomatch hi)⟩
  | cons i rest ih =>
    rw [List.forM_eq_forM, List.forM_cons, wp_bind]
    refine (h i List.mem_cons_self).mono (fun _ t ht => ?_) fun _ _ h => h
    obtain ⟨rfl, hi⟩ := ht
    refine (ih fun j hj => h j (List.mem_cons_of_mem i hj)).mono (fun _ u hu => ⟨hu.1, ?_⟩) fun _ _ h => h
    exact List.forall_mem_cons.2 ⟨hi, hu.2⟩

end rules

attribute [irreducible] wp

section except
variable {x : Except ε α} {f : α → Except ε β} {a : α} {b : β} {e : ε}

theorem bind_eq_ok : x >>= f = .ok b ↔ ∃ a, x = .ok a ∧ f a = .ok b := by
  cases x with
  | error e => exact ⟨fun h => (nomatch h), fun ⟨_, h, _⟩ => (nomatch h)⟩
  | ok a => exact ⟨fun h => ⟨a, rfl, h⟩, fun ⟨_, ha, h⟩ => by cases ha; exact h⟩

@[simp] theorem pure_eq_ok {a' : α} : (pure a : Except ε α) = .ok a' ↔ a = a' := by
  simp [pure, Except.pure]

@[simp] theorem throw_ne_ok : (throw e : Except ε α) = .ok a ↔ False := by
  simp [throw, throwThe, MonadExceptOf.throw]

/-- What a list of fallible steps returns comes from its elements. -/
theorem mem_mapM {g : α → Except ε β} {l : List α} {r : List β} (h : l.mapM g = .ok r) {b : β} (hb : b ∈ r) :
    ∃ a ∈ l, g a = .ok b := by
  induction l generalizing r with
  | nil =>
    rw [List.mapM_nil, pure_eq_ok] at h
    subst h
    cases hb
  | cons a l ih =>
    rw [List.mapM_cons, bind_eq_ok] at h
    obtain ⟨b', hb', h⟩ := h
    obtain ⟨r', hr', h⟩ := bind_eq_ok.1 h
    rw [pure_eq_ok] at h
    subst h
    rcases List.mem_cons.1 hb with rfl | hb
    · exact ⟨a, List.mem_cons_self, hb'⟩
    · obtain ⟨a', ha', hok⟩ := ih hr' hb
      exact ⟨a', List.mem_cons_of_mem _ ha', hok⟩

end except

def endsWith {ε σ α : Type} (test : α → σ → Bool) : EStateM.Result ε σ α → Bool
  | .ok a t => test a t
  | .error _ _ => false

theorem endsWith_eq_true {ε σ α : Type} {test : α → σ → Bool} {r : EStateM.Result ε σ α} (h : endsWith test r = true) :
    ∃ a t, r = .ok a t ∧ test a t = true := by
  cases r with
  | ok a t => exact ⟨a, t, rfl, h⟩
  | error e t => cases h

end Program
