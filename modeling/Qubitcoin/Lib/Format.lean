import Qubitcoin.Lib.Codec

/-! Readers that accept more than one writing of a value, and that some of their errors stop: what
    they read, and where they stop. -/

open codec

namespace format

variable {B E A C : Type} (stopping : E → Prop)

/-- Some bytes, and then what is left of the input. -/
def After (spelled stops : List B → Prop) (input : List B) : Prop :=
  ∃ bytes rest, spelled bytes ∧ input = bytes ++ rest ∧ stops rest

theorem after_false {spelled : List B → Prop} {input : List B} : After spelled (fun _ => False) input ↔ False :=
  ⟨fun ⟨_, _, _, _, hfalse⟩ => hfalse, False.elim⟩

/-- A reader reads the values that are spelled at the beginning of its input, and it stops at the
    inputs of a kind. -/
structure Describes (decode : Decoder B E A) (spelled : A → List B → Prop) (stops : List B → Prop) : Prop where
  run_eq_ok : ∀ {input : List B} {a : A} {rest : List B},
    decode.run input = .ok (a, rest) ↔ ∃ bytes, spelled a bytes ∧ input = bytes ++ rest
  stops_iff : ∀ {input : List B}, (∃ e, stopping e ∧ decode.run input = .error e) ↔ stops input

variable {stopping}

theorem Describes.congr {decode : Decoder B E A} {spelled spelled' : A → List B → Prop} {stops stops' : List B → Prop}
    (hdescribes : Describes stopping decode spelled stops) (hspelled : ∀ a bytes, spelled a bytes ↔ spelled' a bytes)
    (hstops : ∀ input, stops input ↔ stops' input) : Describes stopping decode spelled' stops' where
  run_eq_ok := by
    intro input a rest
    rw [hdescribes.run_eq_ok]
    exact exists_congr fun bytes => and_congr_left fun _ => hspelled a bytes
  stops_iff := by
    intro input
    rw [hdescribes.stops_iff]
    exact hstops input

/-- A result that does not depend on the input. -/
def lift (result : Except E A) : Decoder B E A := fun input => result.map fun a => (a, input)

theorem describes_lift (result : Except E A) :
    Describes stopping (lift result : Decoder B E A) (fun a bytes => result = .ok a ∧ bytes = [])
      fun _ => ∃ e, stopping e ∧ result = .error e where
  run_eq_ok := by
    intro input a rest
    unfold lift StateT.run
    cases result with
    | error e =>
      constructor
      · exact nofun
      · rintro ⟨_, ⟨hok, _⟩, _⟩
        cases hok
    | ok found =>
      constructor
      · intro heq
        cases heq
        exact ⟨[], ⟨rfl, rfl⟩, rfl⟩
      · rintro ⟨_, ⟨heq, rfl⟩, rfl⟩
        cases heq
        rfl
  stops_iff := by
    intro input
    unfold lift StateT.run
    cases result with
    | error e =>
      refine exists_congr fun other => and_congr_right fun _ => ?_
      constructor
      · intro heq
        cases heq
        rfl
      · intro heq
        cases heq
        rfl
    | ok found => exact exists_congr fun _ => and_congr_right fun _ => ⟨nofun, nofun⟩

theorem describes_pure (a : A) :
    Describes stopping (pure a : Decoder B E A) (fun found bytes => found = a ∧ bytes = []) fun _ => False :=
  (describes_lift (.ok a)).congr (fun _ _ => and_congr_left fun _ => ⟨fun heq => (Except.ok.inj heq).symm, congrArg _ ∘ Eq.symm⟩)
    fun _ => ⟨(fun ⟨_, _, heq⟩ => nomatch heq), False.elim⟩

/-- One reader after another one. -/
theorem Describes.bind {x : Decoder B E A} {f : A → Decoder B E C} {spelled : A → List B → Prop} {stops : List B → Prop}
    {spelled' : A → C → List B → Prop} {stops' : A → List B → Prop} (hx : Describes stopping x spelled stops)
    (hf : ∀ a, Describes stopping (f a) (spelled' a) (stops' a)) :
    Describes stopping (x >>= f) (fun c bytes => ∃ a front back, spelled a front ∧ spelled' a c back ∧ bytes = front ++ back)
      fun input => stops input ∨ ∃ a, After (spelled a) (stops' a) input where
  run_eq_ok := by
    intro input c rest
    rw [run_bind_eq_ok]
    constructor
    · rintro ⟨a, mid, hread, hlast⟩
      obtain ⟨front, hfront, rfl⟩ := hx.run_eq_ok.mp hread
      obtain ⟨back, hback, rfl⟩ := (hf a).run_eq_ok.mp hlast
      exact ⟨front ++ back, ⟨a, front, back, hfront, hback, rfl⟩, (List.append_assoc _ _ _).symm⟩
    · rintro ⟨_, ⟨a, front, back, hfront, hback, rfl⟩, rfl⟩
      rw [List.append_assoc]
      exact ⟨a, back ++ rest, hx.run_eq_ok.mpr ⟨front, hfront, rfl⟩, (hf a).run_eq_ok.mpr ⟨back, hback, rfl⟩⟩
  stops_iff := by
    intro input
    rw [StateT.run_bind]
    constructor
    · rintro ⟨e, hstopping, herror⟩
      cases hread : x.run input with
      | error found =>
        rw [hread] at herror
        cases herror
        exact .inl (hx.stops_iff.mp ⟨e, hstopping, hread⟩)
      | ok result =>
        obtain ⟨a, mid⟩ := result
        rw [hread] at herror
        obtain ⟨front, hfront, rfl⟩ := hx.run_eq_ok.mp hread
        exact .inr ⟨a, front, mid, hfront, rfl, (hf a).stops_iff.mp ⟨e, hstopping, herror⟩⟩
    · rintro (hstops | ⟨a, front, rest, hfront, rfl, hstops⟩)
      · obtain ⟨e, hstopping, hread⟩ := hx.stops_iff.mpr hstops
        rw [hread]
        exact ⟨e, hstopping, rfl⟩
      · obtain ⟨e, hstopping, hread⟩ := (hf a).stops_iff.mpr hstops
        rw [hx.run_eq_ok.mpr ⟨front, hfront, rfl⟩]
        exact ⟨e, hstopping, hread⟩

theorem Describes.map {x : Decoder B E A} {spelled : A → List B → Prop} {stops : List B → Prop}
    (hx : Describes stopping x spelled stops) (f : A → C) :
    Describes stopping (do let a ← x; pure (f a)) (fun c bytes => ∃ a, spelled a bytes ∧ c = f a) stops := by
  refine (hx.bind fun a => describes_pure (f a)).congr (fun c bytes => ?_) fun input => ?_
  · refine exists_congr fun a => ?_
    constructor
    · rintro ⟨front, _, hfront, ⟨rfl, rfl⟩, rfl⟩
      rw [List.append_nil]
      exact ⟨hfront, rfl⟩
    · rintro ⟨hspelled, rfl⟩
      exact ⟨bytes, [], hspelled, ⟨rfl, rfl⟩, (List.append_nil _).symm⟩
  · exact ⟨fun hstops => hstops.resolve_right fun ⟨_, _, _, _, _, hfalse⟩ => hfalse, .inl⟩

/-- A reader with other errors. -/
def withErrors {F : Type} (f : F → E) (decode : Decoder B F A) : Decoder B E A := fun input => (decode.run input).mapError f

theorem run_withErrors {F : Type} (f : F → E) (decode : Decoder B F A) (input : List B) :
    (withErrors f decode).run input = (decode.run input).mapError f := rfl

/-- An exact reader whose errors do not stop. -/
theorem describes_of_exact {F : Type} {f : F → E} {decode : Decoder B F A} {encode : A → List B} {valid : A → Prop}
    (hexact : Exact decode encode valid) (herrors : ∀ e, ¬ stopping (f e)) :
    Describes stopping (withErrors f decode) (fun a bytes => valid a ∧ bytes = encode a) fun _ => False where
  run_eq_ok := by
    intro input a rest
    have hrun : (withErrors f decode).run input = .ok (a, rest) ↔ decode.run input = .ok (a, rest) := by
      rw [run_withErrors]
      cases decode.run input with
      | error e => exact ⟨fun heq => (nomatch heq), fun heq => (nomatch heq)⟩
      | ok result => exact ⟨fun heq => congrArg _ (Except.ok.inj heq), fun heq => congrArg _ (Except.ok.inj heq)⟩
    rw [hrun, hexact.run_eq_ok]
    constructor
    · rintro ⟨hvalid, rfl⟩
      exact ⟨_, ⟨hvalid, rfl⟩, rfl⟩
    · rintro ⟨_, ⟨hvalid, rfl⟩, rfl⟩
      exact ⟨hvalid, rfl⟩
  stops_iff := by
    intro input
    refine ⟨fun ⟨e, hstopping, herror⟩ => ?_, False.elim⟩
    rw [run_withErrors] at herror
    cases hread : decode.run input with
    | error found =>
      rw [hread] at herror
      cases herror
      exact herrors found hstopping
    | ok result =>
      rw [hread] at herror
      cases herror

/-- The values of a list, one after the other. -/
def Items (spelled : A → List B → Prop) (items : List A) (bytes : List B) : Prop :=
  ∃ parts, List.Forall₂ spelled items parts ∧ bytes = parts.flatten

/-- Fewer values than announced, and then a stop. -/
def StopsWithin (spelled : A → List B → Prop) (stops : List B → Prop) (n : Nat) (input : List B) : Prop :=
  ∃ items : List A, items.length < n ∧ After (Items spelled items) stops input

theorem stopsWithin_false {spelled : A → List B → Prop} {n : Nat} : StopsWithin spelled (fun _ => False) n = fun _ => False :=
  funext fun _ => propext ⟨fun ⟨_, _, _, _, _, _, hfalse⟩ => hfalse, False.elim⟩

theorem items_cons {spelled : A → List B → Prop} {a : A} {items : List A} {bytes : List B} :
    Items spelled (a :: items) bytes ↔ ∃ front back, spelled a front ∧ Items spelled items back ∧ bytes = front ++ back := by
  constructor
  · rintro ⟨parts, hparts, rfl⟩
    cases hparts with
    | cons hfirst hrest => exact ⟨_, _, hfirst, ⟨_, hrest, rfl⟩, rfl⟩
  · rintro ⟨front, _, hfirst, ⟨parts, hrest, rfl⟩, rfl⟩
    exact ⟨front :: parts, .cons hfirst hrest, rfl⟩

theorem Describes.decode_items {decode : Decoder B E A} {spelled : A → List B → Prop} {stops : List B → Prop}
    (hdescribes : Describes stopping decode spelled stops) (n : Nat) :
    Describes stopping (decode_items decode n) (fun items bytes => items.length = n ∧ Items spelled items bytes)
      (StopsWithin spelled stops n) := by
  induction n with
  | zero =>
    refine (describes_pure []).congr (fun items bytes => ?_) fun input => ?_
    · constructor
      · rintro ⟨rfl, rfl⟩
        exact ⟨rfl, [], .nil, rfl⟩
      · rintro ⟨hlength, parts, hparts, rfl⟩
        obtain rfl := List.length_eq_zero_iff.mp hlength
        cases hparts
        exact ⟨rfl, rfl⟩
    · exact ⟨False.elim, fun ⟨_, hlt, _⟩ => Nat.not_lt_zero _ hlt⟩
  | succ n ih =>
    refine (hdescribes.bind fun a => ih.bind fun rest => describes_pure (a :: rest)).congr (fun items bytes => ?_) fun input => ?_
    · constructor
      · rintro ⟨a, front, _, hfirst, ⟨rest, back, _, ⟨hlength, hrest⟩, ⟨rfl, rfl⟩, rfl⟩, rfl⟩
        rw [List.append_nil]
        exact ⟨by rw [List.length_cons, hlength], items_cons.mpr ⟨front, back, hfirst, hrest, rfl⟩⟩
      · rintro ⟨hlength, hitems⟩
        cases items with
        | nil => cases hlength
        | cons a rest =>
          obtain ⟨front, back, hfirst, hrest, rfl⟩ := items_cons.mp hitems
          refine ⟨a, front, back, hfirst, ⟨rest, back, [], ⟨Nat.succ.inj hlength, hrest⟩, ⟨rfl, rfl⟩, ?_⟩, rfl⟩
          rw [List.append_nil]
    · constructor
      · rintro (hstops | ⟨a, front, _, hfirst, rfl, hstops | ⟨_, _, _, _, _, hfalse⟩⟩)
        · exact ⟨[], Nat.succ_pos n, [], input, ⟨[], .nil, rfl⟩, rfl, hstops⟩
        · obtain ⟨items, hlt, back, rest, hitems, rfl, hstops⟩ := hstops
          exact ⟨a :: items, Nat.succ_lt_succ hlt, front ++ back, rest, items_cons.mpr ⟨front, back, hfirst, hitems, rfl⟩,
            (List.append_assoc _ _ _).symm, hstops⟩
        · exact hfalse.elim
      · rintro ⟨items, hlt, bytes, rest, hitems, rfl, hstops⟩
        cases items with
        | nil =>
          obtain ⟨parts, hparts, rfl⟩ := hitems
          cases hparts
          exact .inl hstops
        | cons a items =>
          obtain ⟨front, back, hfirst, hback, rfl⟩ := items_cons.mp hitems
          refine .inr ⟨a, front, back ++ rest, hfirst, List.append_assoc _ _ _, .inl ?_⟩
          exact ⟨items, Nat.lt_of_succ_lt_succ hlt, back, rest, hback, rfl, hstops⟩

end format
