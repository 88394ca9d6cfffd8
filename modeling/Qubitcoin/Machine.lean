import Mathlib.Tactic

/-! Machine integers and the ways in which the Rust code stops without a result. -/

namespace qubitcoin

/-- The integer types whose arithmetic the model follows. `Amount` wraps an `i64`. -/
inductive IntType where
  | i32 | i64 | u32 | u64 | Amount | usize
  deriving DecidableEq, Repr

def IntType.fits : IntType → Int → Prop
  | .i32, x => -(2 ^ 31) ≤ x ∧ x < 2 ^ 31
  | .i64, x => -(2 ^ 63) ≤ x ∧ x < 2 ^ 63
  | .u32, x => 0 ≤ x ∧ x < 2 ^ 32
  | .u64, x => 0 ≤ x ∧ x < 2 ^ 64
  | .Amount, x => -(2 ^ 63) ≤ x ∧ x < 2 ^ 63
  | .usize, x => 0 ≤ x ∧ x < 2 ^ 64

instance (type : IntType) (x : Int) : Decidable (type.fits x) := by
  cases type <;> exact inferInstanceAs (Decidable (_ ∧ _))

/-- Why a call aborts instead of returning. Arithmetic that leaves its machine
    type is a panic, as in builds with overflow checks, unless a definition says that it wraps. -/
inductive Panic where
  | overflow (type : IntType)
  | division_by_zero
  | negative_shift
  | index_out_of_bounds
  | assertion_failed (message : String)
  deriving DecidableEq, Repr

/-- What a fallible validation function reports: a rejection with its state,
    or a panic. -/
inductive Failure (S : Type) where
  | invalid (state : S)
  | panic (why : Panic)
  deriving DecidableEq, Repr

/-- The result of arithmetic at a machine type whose exact value is `x`. -/
def checked {S : Type} (type : IntType) (x : Int) : Except (Failure S) Int :=
  if type.fits x then .ok x else .error (.panic (.overflow type))

/-- Fail with `e` unless `c` holds. -/
def require {E : Type} (c : Bool) (e : E) : Except E Unit :=
  if c then .ok () else .error e

theorem bind_eq_ok_iff {E A B : Type} {x : Except E A} {f : A → Except E B} {y : B} :
    (x >>= f) = .ok y ↔ ∃ a, x = .ok a ∧ f a = .ok y := by
  cases x <;> simp [bind, Except.bind]

theorem mapError_eq_ok {E F A : Type} {f : E → F} {x : Except E A} {y : A} :
    x.mapError f = .ok y ↔ x = .ok y := by
  cases x <;> simp [Except.mapError]

theorem require_eq_ok {E : Type} {c : Bool} {e : E} {u : Unit} :
    require c e = .ok u ↔ c = true := by
  unfold require
  split
  · next h => simp [h]
  · next h => simpa using h

theorem checked_eq_ok {S : Type} {type : IntType} {x y : Int} :
    (checked type x : Except (Failure S) Int) = .ok y ↔ y = x ∧ type.fits x := by
  unfold checked
  split
  · next hfits =>
    simp only [Except.ok.injEq]
    exact ⟨fun heq => ⟨heq.symm, hfits⟩, fun h => h.1.symm⟩
  · next hfits =>
    simp only [reduceCtorEq, false_iff]
    exact fun h => hfits h.2

/-- The computation does not stop on an overflow of a type. -/
def NoOverflow {S A : Type} (type : IntType) (x : Except (Failure S) A) : Prop :=
  x ≠ .error (.panic (.overflow type))

theorem NoOverflow.ok {S A : Type} {type : IntType} (a : A) : NoOverflow (S := S) type (.ok a) := nofun

theorem NoOverflow.invalid {S A : Type} {type : IntType} (state : S) :
    NoOverflow (A := A) type (.error (.invalid state)) := nofun

theorem NoOverflow.bind {S A B : Type} {type : IntType} {x : Except (Failure S) A}
    {f : A → Except (Failure S) B} (hx : NoOverflow type x) (hf : ∀ a, x = .ok a → NoOverflow type (f a)) :
    NoOverflow type (x >>= f) := by
  cases x with
  | error e =>
    intro heq
    cases heq
    exact hx rfl
  | ok a => exact hf a rfl

theorem NoOverflow.require {S : Type} {type : IntType} {c : Bool} {state : S} :
    NoOverflow type (require c (.invalid state)) := by
  unfold qubitcoin.require
  split
  · exact .ok ()
  · exact .invalid state

theorem NoOverflow.checked {S : Type} {type other : IntType} {x : Int} (hfits : other = type → type.fits x) :
    NoOverflow (S := S) type (checked other x) := by
  unfold qubitcoin.checked
  split
  · exact .ok x
  · next hnot =>
    intro heq
    cases heq
    exact hnot (hfits rfl)

/-- `x as i32` for a `u32`. -/
def as_i32 (x : UInt32) : Int := x.toInt32.toInt

/-- `x as u32` for an `i32`. -/
def as_u32 (x : Int) : UInt32 := UInt32.ofInt x

theorem as_i32_as_u32 {x : Int} (hfits : IntType.i32.fits x) : as_i32 (as_u32 x) = x := by
  obtain ⟨hlow, hhigh⟩ := hfits
  have hbits : as_i32 (as_u32 x) = (BitVec.ofNat 32 (x % 2 ^ 32).toNat).toInt := rfl
  rw [hbits, BitVec.toInt_eq_toNat_bmod, BitVec.toNat_ofNat, Int.bmod_def]
  omega

theorem toNat_as_u32 {x : Int} (hlow : 0 ≤ x) (hhigh : x < 2 ^ 32) : (as_u32 x).toNat = x.toNat := by
  have hbits : (as_u32 x).toNat = (BitVec.ofNat 32 (x % 2 ^ 32).toNat).toNat := rfl
  rw [hbits, BitVec.toNat_ofNat]
  omega

end qubitcoin
