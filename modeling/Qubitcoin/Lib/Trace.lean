import Mathlib.Logic.Basic
import Mathlib.Data.List.Basic

/-! Finite runs of a labelled transition system, invariants of a run and forward
    simulation between two systems. -/

namespace transition

variable {S A E : Type}

/-- A finite run from one state to another, with the events of its steps. -/
inductive Trace (step : S → E → S → Prop) : S → List E → S → Prop where
  | nil (s : S) : Trace step s [] s
  | cons {s t u : S} {e : E} {es : List E} (head : step s e t) (tail : Trace step t es u) :
      Trace step s (e :: es) u

/-- A property that every step preserves holds at the end of every run. -/
theorem Trace.invariant {step : S → E → S → Prop} (inv : S → Prop)
    (hstep : ∀ {s e t}, inv s → step s e t → inv t) {s u : S} {es : List E}
    (hrun : Trace step s es u) (hinit : inv s) : inv u := by
  induction hrun with
  | nil => exact hinit
  | cons head _ ih => exact ih (hstep hinit head)

/-- A run goes on from where another one ends. -/
theorem Trace.append {step : S → E → S → Prop} {s t u : S} {es fs : List E} (hrun : Trace step s es t)
    (hrest : Trace step t fs u) : Trace step s (es ++ fs) u := by
  induction hrun with
  | nil => exact hrest
  | cons head _ ih => exact .cons head (ih hrest)

/-- Steps that are matched, event for event, by steps of another system carry
    every run over to it. -/
theorem Trace.simulate {step : S → E → S → Prop} {abstract : A → E → A → Prop} (rel : S → A → Prop)
    (hstep : ∀ {s e t a}, rel s a → step s e t → ∃ b, abstract a e b ∧ rel t b)
    {s u : S} {es : List E} (hrun : Trace step s es u) {a : A} (hinit : rel s a) :
    ∃ b, Trace abstract a es b ∧ rel u b := by
  induction hrun generalizing a with
  | nil => exact ⟨a, .nil a, hinit⟩
  | cons head _ ih =>
    obtain ⟨b, hhead, hrel⟩ := hstep hinit head
    obtain ⟨c, htail, hend⟩ := ih hrel
    exact ⟨c, .cons hhead htail, hend⟩

/-- The run of a deterministic system over some events, each of them allowed where it occurs. -/
def Allowed (ok : S → E → Prop) (f : S → E → S) : S → List E → Prop
  | _, [] => True
  | s, e :: es => ok s e ∧ Allowed ok f (f s e) es

instance Allowed.decidable {ok : S → E → Prop} {f : S → E → S} [∀ s e, Decidable (ok s e)] :
    ∀ (s : S) (es : List E), Decidable (Allowed ok f s es)
  | _, [] => isTrue trivial
  | s, e :: es =>
    have : Decidable (Allowed ok f (f s e) es) := Allowed.decidable (f s e) es
    inferInstanceAs (Decidable (ok s e ∧ Allowed ok f (f s e) es))

theorem Allowed.trace {ok : S → E → Prop} {f : S → E → S} {s : S} {es : List E} (hallowed : Allowed ok f s es) :
    Trace (fun s e t => ok s e ∧ t = f s e) s es (es.foldl f s) := by
  induction es generalizing s with
  | nil => exact .nil s
  | cons e es ih => exact .cons ⟨hallowed.1, rfl⟩ (ih hallowed.2)

/-- The run of a deterministic system over any events. -/
theorem Trace.of_foldl (f : S → E → S) (es : List E) (s : S) : Trace (fun s e t => t = f s e) s es (es.foldl f s) := by
  induction es generalizing s with
  | nil => exact .nil s
  | cons e es ih => exact .cons rfl (ih _)

/-- A run over two lists of events, one after the other, is cut where the first ends. -/
theorem Trace.split {step : S → E → S → Prop} {s u : S} {es fs : List E} (hrun : Trace step s (es ++ fs) u) :
    ∃ t, Trace step s es t ∧ Trace step t fs u := by
  induction es generalizing s with
  | nil => exact ⟨s, .nil s, hrun⟩
  | cons e es ih =>
    cases hrun with
    | cons head tail =>
      obtain ⟨t, hfirst, hrest⟩ := ih tail
      exact ⟨t, .cons head hfirst, hrest⟩

/-- An invariant that is kept by the steps of the events of a run. -/
theorem Trace.invariant_of_mem {step : S → E → S → Prop} (inv : S → Prop) {s t : S} {es : List E}
    (hrun : Trace step s es t) (hstep : ∀ {s e t}, e ∈ es → inv s → step s e t → inv t) (hinit : inv s) : inv t := by
  induction hrun with
  | nil => exact hinit
  | cons head _ ih =>
    exact ih (fun hmem => hstep (List.mem_cons_of_mem _ hmem)) (hstep List.mem_cons_self hinit head)

end transition

/-! Programs that go by stages: a stage looks at the state and makes a list of moves,
    which are then made one after the other. The moves of a program, each with the
    state it is made in, and what holds of all of them. -/

namespace staged

variable {S M : Type} (apply : M → S → S)

/-- The state after a list of moves. -/
def after (moves : List M) (s : S) : S := moves.foldl (fun s m => apply m s) s

/-- The moves of a list, each with the state before it. -/
def steps : List M → S → List (S × M)
  | [], _ => []
  | m :: moves, s => (s, m) :: steps moves (apply m s)

/-- The state after a program. -/
def finish : List (S → List M) → S → S
  | [], s => s
  | stage :: rest, s => finish rest (after apply (stage s) s)

/-- The moves of a program, each with the state before it. -/
def trace : List (S → List M) → S → List (S × M)
  | [], _ => []
  | stage :: rest, s => steps apply (stage s) s ++ trace rest (after apply (stage s) s)

variable {apply}

theorem finish_append (stages more : List (S → List M)) (s : S) :
    finish apply (stages ++ more) s = finish apply more (finish apply stages s) := by
  induction stages generalizing s with
  | nil => rfl
  | cons stage stages ih => exact ih _

theorem trace_append (stages more : List (S → List M)) (s : S) :
    trace apply (stages ++ more) s = trace apply stages s ++ trace apply more (finish apply stages s) := by
  induction stages generalizing s with
  | nil => rfl
  | cons stage stages ih => rw [List.cons_append, trace, trace, ih, finish, List.append_assoc]

/-- A property that the moves of a list keep, and what it gives of each of them. -/
theorem steps_forall {inv : S → Prop} {P : S → M → Prop} {moves : List M}
    (hmoves : ∀ m ∈ moves, ∀ s, inv s → P s m ∧ inv (apply m s)) :
    ∀ {s : S}, inv s → (∀ step ∈ steps apply moves s, P step.1 step.2) ∧ inv (after apply moves s) := by
  induction moves with
  | nil => exact fun hs => ⟨nofun, hs⟩
  | cons m moves ih =>
    intro s hs
    obtain ⟨hP, hnext⟩ := hmoves m List.mem_cons_self s hs
    obtain ⟨hrest, hlast⟩ := ih (fun other hmem => hmoves other (List.mem_cons_of_mem _ hmem)) hnext
    refine ⟨?_, hlast⟩
    intro step hstep
    obtain rfl | hstep := List.mem_cons.mp hstep
    · exact hP
    · exact hrest step hstep

/-- The same for the stages of a program. -/
theorem trace_forall {inv : S → Prop} {P : S → M → Prop} {stages : List (S → List M)}
    (hstages : ∀ stage ∈ stages, ∀ s, inv s →
      (∀ step ∈ steps apply (stage s) s, P step.1 step.2) ∧ inv (after apply (stage s) s)) :
    ∀ {s : S}, inv s → (∀ step ∈ trace apply stages s, P step.1 step.2) ∧ inv (finish apply stages s) := by
  induction stages with
  | nil => exact fun hs => ⟨nofun, hs⟩
  | cons stage stages ih =>
    intro s hs
    obtain ⟨hfirst, hnext⟩ := hstages stage List.mem_cons_self s hs
    obtain ⟨hrest, hlast⟩ := ih (fun other hmem => hstages other (List.mem_cons_of_mem _ hmem)) hnext
    refine ⟨?_, hlast⟩
    intro step hstep
    obtain hstep | hstep := List.mem_append.mp hstep
    · exact hfirst step hstep
    · exact hrest step hstep

/-- A property that every move keeps holds all along a program. -/
theorem trace_always {inv : S → Prop} (hkeep : ∀ s m, inv s → inv (apply m s)) (stages : List (S → List M)) {s : S}
    (hs : inv s) : (∀ step ∈ trace apply stages s, inv step.1) ∧ inv (finish apply stages s) := by
  apply @trace_forall _ _ apply inv (fun s _ => inv s) stages _ s hs
  intro stage _ s hs
  apply @steps_forall _ _ apply inv (fun s _ => inv s) (stage s) _ s hs
  exact fun m _ s hs => ⟨hs, hkeep s m hs⟩

/-- What holds all along a program holds at its start. -/
theorem trace_start {inv : S → Prop} {stages : List (S → List M)} : ∀ {s : S},
    (∀ step ∈ trace apply stages s, inv step.1) → inv (finish apply stages s) → inv s := by
  induction stages with
  | nil => exact fun _ hlast => hlast
  | cons stage stages ih =>
    intro s htrace hlast
    rw [trace, List.forall_mem_append] at htrace
    rw [finish] at hlast
    cases hmoves : stage s with
    | nil =>
      rw [hmoves] at htrace hlast
      exact ih htrace.2 hlast
    | cons m moves =>
      rw [hmoves] at htrace
      exact htrace.1 _ List.mem_cons_self

section

variable {inv : S → Prop} {ok : S → M → Prop} (hstep : ∀ s m, inv s → (inv (apply m s) ↔ ok s m))

include hstep

/-- A property that exactly the good moves keep holds all along a list of moves, if and
    only if all of them are good. -/
theorem steps_invariant_iff (moves : List M) : ∀ {s : S}, inv s →
    (((∀ step ∈ steps apply moves s, inv step.1) ∧ inv (after apply moves s)) ↔
      ∀ step ∈ steps apply moves s, ok step.1 step.2) := by
  induction moves with
  | nil => exact fun hs => ⟨fun _ => nofun, fun _ => ⟨nofun, hs⟩⟩
  | cons m moves ih =>
    intro s hs
    simp only [steps, List.forall_mem_cons]
    constructor
    · rintro ⟨⟨_, hrest⟩, hlast⟩
      have hnext : inv (apply m s) := by
        cases moves with
        | nil => exact hlast
        | cons other moves => exact hrest _ List.mem_cons_self
      exact ⟨(hstep s m hs).mp hnext, (ih hnext).mp ⟨hrest, hlast⟩⟩
    · rintro ⟨hm, hrest⟩
      obtain ⟨hall, hlast⟩ := (ih ((hstep s m hs).mpr hm)).mpr hrest
      exact ⟨⟨hs, hall⟩, hlast⟩

/-- The same for a program. -/
theorem trace_invariant_iff (stages : List (S → List M)) : ∀ {s : S}, inv s →
    (((∀ step ∈ trace apply stages s, inv step.1) ∧ inv (finish apply stages s)) ↔
      ∀ step ∈ trace apply stages s, ok step.1 step.2) := by
  induction stages with
  | nil => exact fun hs => ⟨fun _ => nofun, fun _ => ⟨nofun, hs⟩⟩
  | cons stage stages ih =>
    intro s hs
    simp only [trace, List.forall_mem_append]
    constructor
    · rintro ⟨⟨hfirst, hrest⟩, hlast⟩
      have hnext : inv (after apply (stage s) s) := trace_start hrest hlast
      exact ⟨(steps_invariant_iff hstep (stage s) hs).mp ⟨hfirst, hnext⟩, (ih hnext).mp ⟨hrest, hlast⟩⟩
    · rintro ⟨hfirst, hrest⟩
      obtain ⟨hall, hnext⟩ := (steps_invariant_iff hstep (stage s) hs).mpr hfirst
      obtain ⟨hothers, hlast⟩ := (ih hnext).mpr hrest
      exact ⟨⟨hall, hothers⟩, hlast⟩

end

end staged
