import Mathlib.Logic.Basic

/-! Computations that may fail: what a computation ensures when some failures are ruled out,
    and computations that succeed more often than others. -/

namespace outcome

variable {E A B : Type}

/-- The computation does not fail in a bad way, and what it returns has a property. -/
def Ensures (bad : E → Prop) (x : Except E A) (Q : A → Prop) : Prop :=
  match x with
  | .ok a => Q a
  | .error e => ¬ bad e

/-- The first computation returns at least what the second one returns. -/
def Below (x y : Except E A) : Prop := ∀ a, y = .ok a → x = .ok a

/-- Two computations fail alike, or return values that are related. -/
def Alike {F : Type} (same : E → F → Prop) (R : A → B → Prop) (x : Except E A) (y : Except F B) : Prop :=
  match x, y with
  | .ok a, .ok b => R a b
  | .error e, .error f => same e f
  | _, _ => False

namespace Alike

variable {F C D : Type} {same : E → F → Prop} {R : A → B → Prop} {S : C → D → Prop} {x : Except E A} {y : Except F B}

theorem bind {f : A → Except E C} {g : B → Except F D} (hxy : Alike same R x y)
    (hfg : ∀ a b, R a b → Alike same S (f a) (g b)) : Alike same S (x >>= f) (y >>= g) := by
  cases x with
  | ok a =>
    cases y with
    | ok b => exact hfg a b hxy
    | error _ => cases hxy
  | error e =>
    cases y with
    | ok _ => cases hxy
    | error f => exact hxy

theorem of_ok {a : A} (hxy : Alike same R x y) (heq : x = .ok a) : ∃ b, y = .ok b ∧ R a b := by
  subst heq
  cases y with
  | ok b => exact ⟨b, rfl, hxy⟩
  | error _ => cases hxy

end Alike

namespace Ensures

variable {bad : E → Prop} {Q R : A → Prop}

theorem pure {a : A} (hq : Q a) : Ensures bad (Pure.pure a : Except E A) Q := hq

theorem error {e : E} (hgood : ¬ bad e) : Ensures bad (.error e : Except E A) Q := hgood

theorem mono {x : Except E A} (hx : Ensures bad x Q) (hqr : ∀ a, Q a → R a) : Ensures bad x R := by
  cases x with
  | ok a => exact hqr a hx
  | error e => exact hx

theorem bind {x : Except E A} {f : A → Except E B} {S : B → Prop} (hx : Ensures bad x Q)
    (hf : ∀ a, Q a → Ensures bad (f a) S) : Ensures bad (x >>= f) S := by
  cases x with
  | ok a => exact hf a hx
  | error e => exact hx

theorem ite {c : Prop} [Decidable c] {x y : Except E A} (hx : c → Ensures bad x Q) (hy : ¬ c → Ensures bad y Q) :
    Ensures bad (if c then x else y) Q := by
  by_cases h : c
  · rw [if_pos h]
    exact hx h
  · rw [if_neg h]
    exact hy h

theorem of_eq_ok {x : Except E A} (hx : Ensures bad x Q) {a : A} (heq : x = .ok a) : Q a := by
  rw [heq] at hx
  exact hx

theorem not_bad {x : Except E A} (hx : Ensures bad x Q) {e : E} (heq : x = .error e) : ¬ bad e := by
  rw [heq] at hx
  exact hx

end Ensures

namespace Below

theorem refl (x : Except E A) : Below x x := fun _ heq => heq

theorem of_error {x : Except E A} (e : E) : Below x (.error e) := fun _ heq => nomatch heq

theorem bind {x y : Except E A} {f g : A → Except E B} (hxy : Below x y) (hfg : ∀ a, Below (f a) (g a)) :
    Below (x >>= f) (y >>= g) := by
  intro b heq
  cases y with
  | error e => cases heq
  | ok a =>
    rw [hxy a rfl]
    exact hfg a b heq

theorem ite {c : Prop} [Decidable c] {x y z w : Except E A} (hxz : c → Below x z) (hyw : ¬ c → Below y w) :
    Below (if c then x else y) (if c then z else w) := by
  by_cases h : c
  · rw [if_pos h, if_pos h]
    exact hxz h
  · rw [if_neg h, if_neg h]
    exact hyw h

end Below

end outcome
