import Mathlib.Tactic

/-! Readers of byte strings, and what it means that one reads exactly what a writer
    writes. -/

namespace codec

variable {B E A C : Type}

/-- A reader: a value and the rest of the input, or an error. -/
abbrev Decoder (B E A : Type) := StateT (List B) (Except E) A

theorem run_bind_eq_ok {x : Decoder B E A} {f : A → Decoder B E C} {input rest : List B} {c : C} :
    (x >>= f).run input = .ok (c, rest) ↔ ∃ a mid, x.run input = .ok (a, mid) ∧ (f a).run mid = .ok (c, rest) := by
  rw [StateT.run_bind]
  cases x.run input with
  | error e => simp [bind, Except.bind]
  | ok result =>
    obtain ⟨a, mid⟩ := result
    simp [bind, Except.bind]

theorem run_bind_of_ok {x : Decoder B E A} {f : A → Decoder B E C} {input mid : List B} {a : A}
    (hx : x.run input = .ok (a, mid)) : (x >>= f).run input = (f a).run mid := by
  rw [StateT.run_bind, hx]
  rfl

theorem run_pure_eq_ok {a c : A} {input rest : List B} :
    (pure a : Decoder B E A).run input = .ok (c, rest) ↔ a = c ∧ input = rest := by
  rw [StateT.run_pure]
  constructor
  · intro heq
    cases heq
    exact ⟨rfl, rfl⟩
  · rintro ⟨rfl, rfl⟩
    rfl

theorem run_throw_eq_ok {e : E} {a : A} {input rest : List B} :
    ¬ (throw e : Decoder B E A).run input = .ok (a, rest) := nofun

/-- Stop with an error unless a condition holds. -/
def guard_or (c : Bool) (e : E) : Decoder B E Unit := if c then pure () else throw e

theorem run_guard_or_eq_ok {c : Bool} {e : E} {u : Unit} {input rest : List B} :
    (guard_or c e : Decoder B E Unit).run input = .ok (u, rest) ↔ c = true ∧ input = rest := by
  unfold guard_or
  cases c with
  | true =>
    rw [if_pos rfl, run_pure_eq_ok]
    exact and_congr_left fun _ => by simp
  | false => simpa using run_throw_eq_ok

/-- The next `n` bytes. -/
def read_exact (eof : E) (n : Nat) : Decoder B E (List B) := fun input =>
  if n ≤ input.length then .ok (input.take n, input.drop n) else .error eof

/-- A reader that accepts the writings of valid values, and nothing else. -/
structure Exact (decode : Decoder B E A) (encode : A → List B) (valid : A → Prop) : Prop where
  run_eq_ok : ∀ {input : List B} {a : A} {rest : List B},
    decode.run input = .ok (a, rest) ↔ valid a ∧ input = encode a ++ rest

theorem exact_read_exact (eof : E) (n : Nat) :
    Exact (read_exact eof n : Decoder B E (List B)) id fun bytes => bytes.length = n where
  run_eq_ok {input bytes rest} := by
    unfold read_exact StateT.run
    dsimp only
    split
    · next hle =>
      constructor
      · intro heq
        cases heq
        exact ⟨by simp [hle], by simp⟩
      · rintro ⟨rfl, rfl⟩
        simp
    · next hlt =>
      constructor
      · exact nofun
      · rintro ⟨rfl, rfl⟩
        simp at hlt

/-- Values that stand for the raw values of a reader. -/
theorem Exact.map {decode : Decoder B E A} {encode : A → List B} {valid : A → Prop} (hexact : Exact decode encode valid)
    {f : A → C} {g : C → A} {valid_image : C → Prop} (hleft : ∀ {a}, valid a → g (f a) = a ∧ valid_image (f a))
    (hright : ∀ {c}, valid_image c → f (g c) = c ∧ valid (g c)) :
    Exact (do let a ← decode; pure (f a)) (fun c => encode (g c)) valid_image where
  run_eq_ok {input c rest} := by
    simp only [run_bind_eq_ok, run_pure_eq_ok, hexact.run_eq_ok]
    constructor
    · rintro ⟨a, _, ⟨hvalid, rfl⟩, rfl, rfl⟩
      obtain ⟨hback, himage⟩ := hleft hvalid
      exact ⟨himage, by rw [hback]⟩
    · rintro ⟨himage, rfl⟩
      obtain ⟨hback, hvalid⟩ := hright himage
      exact ⟨g c, rest, ⟨hvalid, rfl⟩, hback, rfl⟩

/-- Read a number of values one after the other. -/
def decode_items (decode : Decoder B E A) : Nat → Decoder B E (List A)
  | 0 => pure []
  | n + 1 => do
    let a ← decode
    let rest ← decode_items decode n
    pure (a :: rest)

theorem Exact.decode_items {decode : Decoder B E A} {encode : A → List B} {valid : A → Prop}
    (hexact : Exact decode encode valid) (n : Nat) :
    Exact (decode_items decode n) (fun list => list.flatMap encode)
      fun list => list.length = n ∧ ∀ a ∈ list, valid a := by
  induction n with
  | zero =>
    constructor
    intro input list rest
    unfold codec.decode_items
    rw [run_pure_eq_ok]
    constructor
    · rintro ⟨rfl, rfl⟩
      simp
    · rintro ⟨⟨hlength, _⟩, rfl⟩
      obtain rfl := List.length_eq_zero_iff.mp hlength
      simp
  | succ n ih =>
    constructor
    intro input list rest
    unfold codec.decode_items
    simp only [run_bind_eq_ok, run_pure_eq_ok, hexact.run_eq_ok, ih.run_eq_ok]
    constructor
    · rintro ⟨a, _, ⟨hvalid, rfl⟩, tail, _, ⟨⟨hlength, htail⟩, rfl⟩, rfl, rfl⟩
      refine ⟨⟨by simp [hlength], ?_⟩, by simp⟩
      simpa using ⟨hvalid, htail⟩
    · rintro ⟨⟨hlength, hvalid⟩, rfl⟩
      cases list with
      | nil => simp at hlength
      | cons a tail =>
        have hparts : valid a ∧ ∀ a ∈ tail, valid a := by simpa using hvalid
        refine ⟨a, tail.flatMap encode ++ rest, ⟨hparts.1, by simp⟩, tail, rest, ⟨⟨?_, hparts.2⟩, rfl⟩, rfl, rfl⟩
        simpa using hlength

/-- Writings can be told apart whatever follows them. -/
theorem Exact.append_inj {decode : Decoder B E A} {encode : A → List B} {valid : A → Prop}
    (hexact : Exact decode encode valid) {a b : A} (ha : valid a) (hb : valid b) {rest rest' : List B}
    (heq : encode a ++ rest = encode b ++ rest') : a = b ∧ rest = rest' := by
  have hleft := hexact.run_eq_ok.mpr ⟨ha, heq.symm⟩
  have hright := hexact.run_eq_ok.mpr ⟨hb, Eq.refl (encode b ++ rest')⟩
  rw [hleft] at hright
  cases hright
  exact ⟨rfl, rfl⟩

theorem Exact.inj {decode : Decoder B E A} {encode : A → List B} {valid : A → Prop}
    (hexact : Exact decode encode valid) {a b : A} (ha : valid a) (hb : valid b) (heq : encode a = encode b) : a = b :=
  (hexact.append_inj ha hb (congrArg (· ++ []) heq)).1

/-- The values of a list can be told apart without a count. -/
theorem Exact.flatMap_inj {decode : Decoder B E A} {encode : A → List B} {valid : A → Prop}
    (hexact : Exact decode encode valid) (hne : ∀ a, encode a ≠ []) :
    ∀ {as bs : List A}, (∀ a ∈ as, valid a) → (∀ b ∈ bs, valid b) → as.flatMap encode = bs.flatMap encode → as = bs
  | [], [], _, _, _ => rfl
  | [], b :: bs, _, _, heq => absurd (List.append_eq_nil_iff.mp heq.symm).1 (hne b)
  | a :: as, [], _, _, heq => absurd (List.append_eq_nil_iff.mp heq).1 (hne a)
  | a :: as, b :: bs, has, hbs, heq => by
    obtain ⟨rfl, hrest⟩ := hexact.append_inj (has a List.mem_cons_self) (hbs b List.mem_cons_self) heq
    rw [hexact.flatMap_inj hne (fun a hmem => has a (List.mem_cons_of_mem _ hmem))
      (fun b hmem => hbs b (List.mem_cons_of_mem _ hmem)) hrest]

end codec
