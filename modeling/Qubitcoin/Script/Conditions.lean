import Mathlib.Data.List.Infix
import Qubitcoin.Script.Stack

/-! The condition stack keeps two numbers in place of the conditions of the open branches.
    Its answers are those of the list of the conditions, as deep as a `u32` counts. -/

namespace qubitcoin.interpreter.vm

/-- What the branching operations do to the open branches. -/
inductive Branching where
  | push_back (f : Bool)
  | pop_back
  | toggle_top
  deriving DecidableEq, Repr

namespace Branching

/-- The operation on the conditions themselves, those of the innermost branch first. -/
def on_list : Branching → List Bool → Option (List Bool)
  | .push_back f, conditions => some (f :: conditions)
  | .pop_back, _ :: outer => some outer
  | .toggle_top, f :: outer => some ((!f) :: outer)
  | _, [] => none

def on_stack : Branching → ConditionStack → Run ConditionStack
  | .push_back f, stack => stack.push_back f
  | .pop_back, stack => stack.pop_back
  | .toggle_top, stack => stack.toggle_top

/-- The conditions after a sequence of operations that is valid on them. -/
def conditions (steps : List Branching) : Option (List Bool) := steps.foldlM (fun outer step => step.on_list outer) []

/-- The stack after a sequence of operations. -/
def stack (steps : List Branching) : Run ConditionStack := steps.foldlM (fun stack step => step.on_stack stack) .new

theorem conditions_concat (steps : List Branching) (last : Branching) :
    conditions (steps ++ [last]) = (conditions steps).bind last.on_list := by
  unfold conditions
  rw [List.foldlM_append]
  exact bind_congr fun outer => bind_pure _

theorem length_on_list {step : Branching} {outer next : List Bool} (hlist : step.on_list outer = some next) :
    next.length ≤ outer.length + 1 := by
  cases step with
  | push_back f =>
    cases hlist
    exact le_rfl
  | pop_back =>
    cases outer with
    | nil => cases hlist
    | cons f rest =>
      cases hlist
      rw [List.length_cons]
      omega
  | toggle_top =>
    cases outer with
    | nil => cases hlist
    | cons f rest =>
      cases hlist
      exact Nat.le_succ _

theorem length_conditions {steps : List Branching} : ∀ {outer : List Bool}, conditions steps = some outer →
    outer.length ≤ steps.length := by
  induction steps using List.reverseRecOn with
  | nil =>
    intro outer hlist
    cases hlist
    exact le_rfl
  | append_singleton steps last ih =>
    intro outer hlist
    obtain ⟨before, hbefore, hlast⟩ := Option.bind_eq_some_iff.mp ((conditions_concat steps last).symm.trans hlist)
    rw [List.length_append, List.length_singleton]
    exact (length_on_list hlast).trans (Nat.succ_le_succ (ih hbefore))

end Branching

namespace ConditionStack

/-- The position of the outermost condition that is false. -/
def first_false : List Bool → Nat
  | [] => NO_FALSE
  | f :: outer => if first_false outer = NO_FALSE ∧ f = false then outer.length else first_false outer

/-- The two numbers are those of the conditions. -/
structure Tracks (stack : ConditionStack) (conditions : List Bool) : Prop where
  depth : conditions.length < 2 ^ 32
  stack_size : stack.stack_size = conditions.length
  first_false_pos : stack.first_false_pos = first_false conditions

theorem first_false_lt {conditions : List Bool} :
    first_false conditions = NO_FALSE ∨ first_false conditions < conditions.length := by
  induction conditions with
  | nil => exact .inl rfl
  | cons f outer ih =>
    rw [first_false, List.length_cons]
    split
    · exact .inr (Nat.lt_succ_self _)
    · exact ih.imp_right Nat.lt_succ_of_lt

theorem first_false_eq_iff {conditions : List Bool} (hdepth : conditions.length < 2 ^ 32) :
    first_false conditions = NO_FALSE ↔ conditions.all id = true := by
  induction conditions with
  | nil => exact ⟨fun _ => rfl, fun _ => rfl⟩
  | cons f outer ih =>
    rw [List.length_cons] at hdepth
    have houter := ih (by omega)
    rw [first_false, List.all_cons, Bool.and_eq_true, ← houter]
    cases f with
    | false =>
      -- A false condition has a position below the depth, which is no `NO_FALSE`.
      have hlt : outer.length ≠ NO_FALSE := by
        unfold NO_FALSE
        omega
      constructor
      · intro hfirst
        split at hfirst
        · exact absurd hfirst hlt
        · next hnot => exact absurd ⟨hfirst, rfl⟩ hnot
      · intro hboth
        cases hboth.1
    | true =>
      rw [if_neg (fun hboth => nomatch hboth.2)]
      exact ⟨fun hfirst => ⟨rfl, hfirst⟩, And.right⟩

namespace Tracks

variable {stack : ConditionStack} {conditions : List Bool}

theorem new : Tracks .new [] := ⟨by decide, rfl, rfl⟩

theorem all_true (htracks : stack.Tracks conditions) : stack.all_true = conditions.all id := by
  rw [ConditionStack.all_true, Bool.eq_iff_iff, beq_iff_eq, htracks.first_false_pos]
  exact first_false_eq_iff htracks.depth

theorem empty (htracks : stack.Tracks conditions) : stack.empty = conditions.isEmpty := by
  rw [ConditionStack.empty, htracks.stack_size, Bool.eq_iff_iff, beq_iff_eq, List.isEmpty_iff, List.length_eq_zero_iff]

theorem push_back (htracks : stack.Tracks conditions) {f : Bool} (hdepth : (f :: conditions).length < 2 ^ 32) :
    ∃ pushed, stack.push_back f = .ok pushed ∧ pushed.Tracks (f :: conditions) := by
  obtain ⟨_, hsize, hfirst⟩ := htracks
  have hadd : add_u32 conditions.length 1 = .ok (conditions.length + 1) := if_pos hdepth
  unfold ConditionStack.push_back
  rw [hsize, hfirst, hadd]
  exact ⟨_, rfl, hdepth, rfl, rfl⟩

theorem pop_back {f : Bool} (htracks : stack.Tracks (f :: conditions)) :
    ∃ popped, stack.pop_back = .ok popped ∧ popped.Tracks conditions := by
  obtain ⟨hdepth, hsize, hfirst⟩ := htracks
  rw [List.length_cons] at hdepth hsize
  unfold ConditionStack.pop_back sub_u32
  rw [hsize, hfirst, if_pos (Nat.le_add_left _ _), Nat.add_sub_cancel]
  refine ⟨_, rfl, by omega, rfl, ?_⟩
  dsimp only
  rw [first_false]
  split
  · next hpopped =>
    rw [if_pos rfl]
    exact hpopped.1.symm
  · next hkept =>
    obtain hnone | hlt := @first_false_lt conditions
    · rw [hnone, if_neg]
      unfold NO_FALSE
      omega
    · rw [if_neg (by omega)]

theorem toggle_top {f : Bool} (htracks : stack.Tracks (f :: conditions)) :
    ∃ toggled, stack.toggle_top = .ok toggled ∧ toggled.Tracks ((!f) :: conditions) := by
  obtain ⟨hdepth, hsize, hfirst⟩ := htracks
  rw [List.length_cons] at hdepth hsize
  have hbelow : conditions.length ≠ NO_FALSE := by
    unfold NO_FALSE
    omega
  unfold ConditionStack.toggle_top sub_u32
  rw [hsize, if_pos (Nat.le_add_left _ _), Nat.add_sub_cancel]
  show ∃ toggled, (if stack.first_false_pos = NO_FALSE then _ else _ : Run ConditionStack) = .ok toggled ∧ _
  rw [hfirst]
  by_cases hnone : first_false conditions = NO_FALSE
  · -- The branches outside are all executed, so the top decides.
    cases f with
    | false =>
      have hold : first_false (false :: conditions) = conditions.length := if_pos ⟨hnone, rfl⟩
      rw [hold, if_neg hbelow, if_pos rfl]
      exact ⟨_, rfl, hdepth, rfl, hnone.symm.trans (if_neg (fun hboth => nomatch hboth.2)).symm⟩
    | true =>
      have hold : first_false (true :: conditions) = NO_FALSE := (if_neg (fun hboth => nomatch hboth.2)).trans hnone
      rw [hold, if_pos rfl]
      exact ⟨_, rfl, hdepth, rfl, (if_pos ⟨hnone, rfl⟩ : first_false (false :: conditions) = conditions.length).symm⟩
  · -- A branch outside is skipped, and stays the first one.
    have hsame : ∀ g : Bool, first_false (g :: conditions) = first_false conditions := fun g => if_neg fun hboth => hnone hboth.1
    have hlt := (@first_false_lt conditions).resolve_left hnone
    rw [hsame, if_neg hnone, if_neg (by omega)]
    exact ⟨_, rfl, hdepth, hsize, hfirst.trans ((hsame f).trans (hsame (!f)).symm)⟩

theorem step {step : Branching} {next : List Bool} (htracks : stack.Tracks conditions)
    (hlist : step.on_list conditions = some next) (hdepth : next.length < 2 ^ 32) :
    ∃ after, step.on_stack stack = .ok after ∧ after.Tracks next := by
  cases step with
  | push_back f =>
    cases hlist
    exact htracks.push_back hdepth
  | pop_back =>
    cases conditions with
    | nil => cases hlist
    | cons f outer =>
      cases hlist
      exact htracks.pop_back
  | toggle_top =>
    cases conditions with
    | nil => cases hlist
    | cons f outer =>
      cases hlist
      exact htracks.toggle_top

theorem run {steps : List Branching} : ∀ {conditions : List Bool}, Branching.conditions steps = some conditions →
    (∀ before outer, before <+: steps → Branching.conditions before = some outer → outer.length < 2 ^ 32) →
      ∃ stack, Branching.stack steps = .ok stack ∧ stack.Tracks conditions := by
  induction steps using List.reverseRecOn with
  | nil =>
    intro conditions hlist _
    cases hlist
    exact ⟨.new, rfl, new⟩
  | append_singleton steps last ih =>
    intro conditions hlist hdepth
    obtain ⟨outer, houter, hlast⟩ :=
      Option.bind_eq_some_iff.mp ((Branching.conditions_concat steps last).symm.trans hlist)
    obtain ⟨stack, hstack, htracks⟩ := ih houter fun before outer hbefore =>
      hdepth before outer (hbefore.trans (List.prefix_append _ _))
    obtain ⟨after, hafter, htracks⟩ := htracks.step hlast (hdepth _ _ List.prefix_rfl hlist)
    refine ⟨after, ?_, htracks⟩
    unfold Branching.stack at hstack ⊢
    rw [List.foldlM_append, hstack]
    show last.on_stack stack >>= pure = .ok after
    rw [hafter]
    rfl

end Tracks

/-- As long as fewer than `2 ^ 32` branches are open, the stack answers after every step as the
    list of the conditions does. -/
theorem answers_as_list {steps : List Branching} {conditions : List Bool}
    (hvalid : Branching.conditions steps = some conditions)
    (hdepth : ∀ before outer, before <+: steps → Branching.conditions before = some outer → outer.length < 2 ^ 32)
    {before : List Branching} (hbefore : before <+: steps) :
    ∃ stack outer, Branching.stack before = .ok stack ∧ Branching.conditions before = some outer ∧
      stack.all_true = outer.all id ∧ stack.empty = outer.isEmpty := by
  obtain ⟨after, rfl⟩ := hbefore
  unfold Branching.conditions at hvalid
  rw [List.foldlM_append] at hvalid
  obtain ⟨outer, houter, _⟩ := Option.bind_eq_some_iff.mp hvalid
  obtain ⟨stack, hstack, htracks⟩ := Tracks.run houter fun before outer hbefore =>
    hdepth before outer (hbefore.trans (List.prefix_append _ _))
  exact ⟨stack, outer, hstack, houter, htracks.all_true, htracks.empty⟩

/-- An inner branch is closed inside one that is skipped. -/
theorem answers_as_list_nested :
    ∃ stack outer, Branching.stack [.push_back false, .push_back true, .pop_back, .toggle_top] = .ok stack ∧
      Branching.conditions [.push_back false, .push_back true, .pop_back, .toggle_top] = some outer ∧
      stack.all_true = outer.all id ∧ stack.empty = outer.isEmpty := by
  refine answers_as_list (rfl : Branching.conditions _ = some [true]) (fun before outer hbefore houter => ?_) List.prefix_rfl
  calc outer.length ≤ before.length := Branching.length_conditions houter
    _ ≤ 4 := hbefore.length_le
    _ < 2 ^ 32 := by decide

theorem pushed_eq {n : Nat} (hlt : n < 2 ^ 32) :
    Branching.stack (List.replicate n (.push_back true)) = .ok ⟨n, NO_FALSE⟩ := by
  induction n with
  | zero => rfl
  | succ n ih =>
    unfold Branching.stack at ih ⊢
    rw [List.replicate_succ', List.foldlM_append, ih (by omega)]
    show (do let size ← add_u32 n 1; pure ⟨size, if NO_FALSE = NO_FALSE ∧ true = false then n else NO_FALSE⟩ :
      Run ConditionStack) >>= pure = _
    rw [add_u32, if_pos hlt]
    rfl

theorem pushed_conditions (n : Nat) :
    Branching.conditions (List.replicate n (.push_back true)) = some (List.replicate n true) := by
  induction n with
  | zero => rfl
  | succ n ih =>
    unfold Branching.conditions at ih ⊢
    rw [List.replicate_succ', List.foldlM_append, ih, List.replicate_succ]
    rfl

/-- The branch of number `2 ^ 32` cannot be opened. -/
theorem answers_as_list_fails :
    ¬ ∀ (steps : List Branching) (conditions : List Bool), Branching.conditions steps = some conditions →
      ∃ stack, Branching.stack steps = .ok stack ∧ stack.all_true = conditions.all id ∧
        stack.empty = conditions.isEmpty := by
  intro hall
  obtain ⟨stack, hstack, _⟩ := hall _ _ (pushed_conditions (2 ^ 32 - 1 + 1))
  unfold Branching.stack at hstack
  rw [List.replicate_succ', List.foldlM_append] at hstack
  have hbefore := pushed_eq (show 2 ^ 32 - 1 < 2 ^ 32 by decide)
  unfold Branching.stack at hbefore
  rw [hbefore] at hstack
  cases hstack

end ConditionStack

end qubitcoin.interpreter.vm
