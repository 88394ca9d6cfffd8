import Mathlib.Logic.Relation
import Qubitcoin.Indexer.Lifecycle

/-! Which managers run an indexer only after those it depends on, over every order of
    calls, of the runs of a phase and of the steps of the workers. -/

open Relation

namespace qubitcoin.indexer

/-- If the move is a run, the dependencies of the indexer have reached the height. -/
def Ready (step : Indexers × Move) : Prop :=
  match step.2 with
  | .run i height _ => ∀ inst, step.1[i]? = some inst → dependencies_satisfied step.1 inst height = true
  | _ => True

/-- The indexer with one label names another one as a dependency. -/
def DependsOn (indexers : Indexers) (label dep_label : String) : Prop :=
  ∃ inst ∈ indexers, inst.label = label ∧ dep_label ∈ inst.depends_on

/-- A manager as it comes out of its configuration: no indexer is paused, and there is an
    empty queue for each worker in asynchronous mode. -/
structure Loaded (manager : IndexerManager) : Prop where
  acyclic : ∀ label, ¬ TransGen (DependsOn manager.indexers) label label
  paused : ∀ inst ∈ manager.indexers, inst.paused = false
  block_sender : ∀ inst ∈ manager.indexers, inst.block_sender = if manager.mode = .Async then some [] else none
  tip_height : ∀ inst ∈ manager.indexers, inst.tip_height.toNat + 1 < 2 ^ 32

variable {runtime : Runtime}

theorem dependencies_satisfied_iff {indexers : Indexers} {inst : IndexerInstance} {height : UInt32} :
    dependencies_satisfied indexers inst height = true ↔ ∀ dep_label ∈ inst.depends_on,
      ∃ dep, indexers.find? (fun dep => dep.label == dep_label) = some dep ∧ height ≤ dep.tip_height := by
  unfold dependencies_satisfied
  rw [List.all_eq_true]
  apply forall_congr'
  intro dep_label
  apply imp_congr_right
  intro _
  cases indexers.find? fun dep => dep.label == dep_label with
  | none => simp
  | some dep => simp

/-- The indexers of one state, with those of a later one at the same positions: the
    dependencies named that had reached the height still have. -/
def Kept (deps : List String) (height : UInt32) (before now : Indexers) : Prop :=
  List.Forall₂ (fun old new => new.config = old.config ∧
    (old.label ∈ deps → height ≤ old.tip_height → height ≤ new.tip_height)) before now

theorem Kept.refl (deps : List String) (height : UInt32) (indexers : Indexers) : Kept deps height indexers indexers :=
  List.forall₂_same.mpr fun _ _ => ⟨rfl, fun _ => id⟩

theorem Kept.find {deps : List String} {height : UInt32} {before now : Indexers} (hkept : Kept deps height before now)
    {dep_label : String} (hmem : dep_label ∈ deps) {dep : IndexerInstance}
    (hfind : before.find? (fun dep => dep.label == dep_label) = some dep) (htip : height ≤ dep.tip_height) :
    ∃ dep, now.find? (fun dep => dep.label == dep_label) = some dep ∧ height ≤ dep.tip_height := by
  induction hkept with
  | nil => cases hfind
  | @cons old new olds news hrel _ ih =>
    have hlabel : new.label = old.label := congrArg Prod.fst hrel.1
    rw [List.find?_cons] at hfind ⊢
    rw [hlabel]
    split at hfind
    · next heq =>
      cases hfind
      exact ⟨new, rfl, hrel.2 (by rw [eq_of_beq heq]; exact hmem) htip⟩
    · exact ih hfind

theorem Kept.dependencies_satisfied {height : UInt32} {before now : Indexers} {inst other : IndexerInstance}
    (hkept : Kept inst.depends_on height before now) (hdeps : other.depends_on = inst.depends_on)
    (hbefore : indexer.dependencies_satisfied before inst height = true) :
    indexer.dependencies_satisfied now other height = true := by
  rw [dependencies_satisfied_iff] at hbefore ⊢
  rw [hdeps]
  intro dep_label hmem
  obtain ⟨dep, hfind, htip⟩ := hbefore dep_label hmem
  exact hkept.find hmem hfind htip

theorem dependencies_satisfied_le {indexers : Indexers} {inst : IndexerInstance} {height lower : UInt32}
    (hle : lower ≤ height) (hsatisfied : dependencies_satisfied indexers inst height = true) :
    dependencies_satisfied indexers inst lower = true := by
  rw [dependencies_satisfied_iff] at hsatisfied ⊢
  intro dep_label hmem
  obtain ⟨dep, hfind, htip⟩ := hsatisfied dep_label hmem
  exact ⟨dep, hfind, UInt32.le_trans hle htip⟩

theorem Kept.run {deps : List String} {height : UInt32} {before now : Indexers} (hkept : Kept deps height before now)
    {i : Nat} {at_height : UInt32} {input : Bytes}
    (hrun : ∀ inst, now[i]? = some inst → inst.label ∈ deps → height ≤ at_height) :
    Kept deps height before ((Move.run i at_height input).apply runtime now) := by
  unfold Move.apply edit
  split
  · next inst hat =>
    apply List.forall₂_iff_get.mpr
    obtain ⟨hlength, hget⟩ := List.forall₂_iff_get.mp hkept
    refine ⟨by rw [List.length_set, hlength], ?_⟩
    intro k hk hk'
    rw [List.length_set] at hk'
    have hrel := hget k hk hk'
    rw [List.get_eq_getElem, List.get_eq_getElem] at hrel
    rw [List.get_eq_getElem, List.get_eq_getElem, List.getElem_set]
    split
    · next hsame =>
      subst hsame
      have hinst : now[(Move.run i at_height input).target] = inst :=
        (List.getElem_eq_iff hk').mpr hat
      rw [hinst] at hrel
      refine ⟨(Move.change_config _ inst).trans hrel.1, ?_⟩
      intro hmem htip
      have hlabel : inst.label = _ := congrArg Prod.fst hrel.1
      have habove := hrun inst hat (hlabel ▸ hmem)
      have hold := hrel.2 hmem htip
      show height ≤ (run_indexer_block runtime inst at_height input).tip_height
      rw [run_indexer_block_eq]
      split
      · exact habove
      · exact hold
    · exact hrel
  · exact hkept

/-- No worker has a queue, and no indexer depends on itself. -/
def Inline (indexers : Indexers) : Prop :=
  ∀ (j : Nat) (inst : IndexerInstance), indexers[j]? = some inst →
    inst.block_sender = none ∧ inst.label ∉ inst.depends_on

theorem Inline.apply {indexers : Indexers} (hinline : Inline indexers) (move : Move) :
    Inline (move.apply runtime indexers) := by
  intro j inst hat
  rw [Move.getElem?_apply] at hat
  split at hat
  · obtain ⟨old, hold, rfl⟩ := Option.map_eq_some_iff.mp hat
    obtain ⟨hsender, hself⟩ := hinline j old hold
    have hconfig := @Move.change_config runtime move old
    have hlabel : (move.change runtime old).label = old.label := congrArg Prod.fst hconfig
    have hdeps : (move.change runtime old).depends_on = old.depends_on := congrArg (fun config => config.2.2) hconfig
    refine ⟨?_, by rw [hlabel, hdeps]; exact hself⟩
    cases move with
    | run i height input =>
      rw [Move.change, run_indexer_block_eq]
      split
      · exact hsender
      · exact hsender
    | send i height input | take i =>
      rw [Move.change, hsender]
      rfl
    | set_paused i paused => exact hsender
  · exact hinline j inst hat

theorem ready_of_no_dependencies {indexers : Indexers} {move : Move}
    (hnone : ∀ inst, indexers[move.target]? = some inst → inst.depends_on = []) : Ready (indexers, move) := by
  cases move with
  | run i height input =>
    intro inst hat
    rw [dependencies_satisfied, hnone inst hat]
    rfl
  | send i height input | take i | set_paused i paused => exact True.intro

theorem depends_on_of_config {before now : Indexers} {i : Nat}
    (hconfig : now[i]?.map IndexerInstance.config = before[i]?.map IndexerInstance.config)
    {inst other : IndexerInstance} (hat : before[i]? = some inst) (hnow : now[i]? = some other) :
    other.label = inst.label ∧ other.depends_on = inst.depends_on := by
  rw [hat, hnow, Option.map_some, Option.map_some, Option.some.injEq] at hconfig
  exact ⟨congrArg Prod.fst hconfig, congrArg (fun config => config.2.2) hconfig⟩

theorem steps_ready_secondary {moves : List Move} {before : Indexers} (hinline : Inline before)
    (hnone : ∀ move ∈ moves, ∀ inst, before[move.target]? = some inst → inst.depends_on = []) :
    (∀ step ∈ staged.steps (Move.apply runtime) moves before, Ready (step.1, step.2)) ∧
      Inline (staged.after (Move.apply runtime) moves before) := by
  have hsteps := @staged.steps_forall _ _ (Move.apply runtime)
    (fun now => Inline now ∧ ∀ j : Nat, now[j]?.map IndexerInstance.config = before[j]?.map IndexerInstance.config)
    (fun now move => Ready (now, move)) moves ?_ before ⟨hinline, fun _ => rfl⟩
  · exact ⟨hsteps.1, hsteps.2.1⟩
  intro move hmem now hnow
  refine ⟨?_, hnow.1.apply move, fun j => (move.getElem?_config now j).trans (hnow.2 j)⟩
  apply ready_of_no_dependencies
  intro other hother
  cases hat : before[move.target]? with
  | none =>
    have hconfig := hnow.2 move.target
    rw [hother, hat] at hconfig
    cases hconfig
  | some inst => rw [(depends_on_of_config (hnow.2 _) hat hother).2, hnone move hmem inst hat]

/-- The runs of a stage, each about an indexer whose dependencies are satisfied before the
    stage, at heights that keep them so. -/
theorem steps_ready_tertiary {moves : List Move} {before : Indexers} (hinline : Inline before) {height : UInt32}
    (hmoves : ∀ move ∈ moves, ∃ i at_height input inst, move = .run i at_height input ∧ at_height ≤ height ∧
      before[i]? = some inst ∧ dependencies_satisfied before inst height = true)
    (hkeep : ∀ move ∈ moves, ∀ other ∈ moves, ∀ i at_height input, move = .run i at_height input →
      ∀ source, before[i]? = some source → ∀ inst, before[other.target]? = some inst →
        source.label ∈ inst.depends_on → height ≤ at_height) :
    (∀ step ∈ staged.steps (Move.apply runtime) moves before, Ready (step.1, step.2)) ∧
      Inline (staged.after (Move.apply runtime) moves before) := by
  have hsteps := @staged.steps_forall _ _ (Move.apply runtime)
    (fun now => Inline now ∧ (∀ j : Nat, now[j]?.map IndexerInstance.config = before[j]?.map IndexerInstance.config) ∧
      ∀ other ∈ moves, ∀ inst, before[other.target]? = some inst → Kept inst.depends_on height before now)
    (fun now move => Ready (now, move)) moves ?_ before ⟨hinline, fun _ => rfl, fun _ _ _ _ => .refl _ _ _⟩
  · exact ⟨hsteps.1, hsteps.2.1⟩
  rintro move hmem now ⟨hnow, hconfig, hkept⟩
  obtain ⟨i, at_height, input, inst, rfl, hle, hat, hsatisfied⟩ := hmoves move hmem
  refine ⟨?_, hnow.apply _, fun j => (Move.getElem?_config _ now j).trans (hconfig j), ?_⟩
  · intro other hother
    have hdeps := (depends_on_of_config (hconfig i) hat hother).2
    exact dependencies_satisfied_le hle ((hkept _ hmem inst hat).dependencies_satisfied hdeps hsatisfied)
  · intro other hother source hsource
    apply (hkept other hother source hsource).run
    intro current hcurrent hlabel
    rw [(depends_on_of_config (hconfig i) hat hcurrent).1] at hlabel
    exact hkeep _ hmem other hother i at_height input rfl inst hat source hsource hlabel

theorem mem_replay {read_block : UInt32 → Option Bytes} {heights : List UInt32} {block : UInt32 × Bytes}
    (hmem : block ∈ replay read_block heights) : block.1 ∈ heights := by
  induction heights with
  | nil => cases hmem
  | cons h rest ih =>
    unfold replay at hmem
    split at hmem
    · obtain rfl | hmem := List.mem_cons.mp hmem
      · exact List.mem_cons_self
      · exact List.mem_cons_of_mem _ (ih hmem)
    · cases hmem

theorem behind_le {inst : IndexerInstance} {chain_height h : UInt32} (hmem : h ∈ inst.behind chain_height) :
    h ≤ chain_height := by
  unfold IndexerInstance.behind at hmem
  obtain ⟨k, hk, rfl⟩ := List.mem_map.mp hmem
  rw [List.mem_range'_1] at hk
  have hbound := chain_height.toNat_lt
  rw [UInt32.le_iff_toNat_le, UInt32.toNat_ofNat_of_lt' (show k < 2 ^ 32 by omega)]
  omega

theorem mem_catch_up_if {selected : Indexers → IndexerInstance → Bool} {chain_height : UInt32}
    {read_block : UInt32 → Option Bytes} {i : Nat} {indexers : Indexers} {move : Move}
    (hmem : move ∈ catch_up_if selected chain_height read_block i indexers) :
    ∃ inst, indexers[i]? = some inst ∧ selected indexers inst = true ∧ ∃ h input, h ≤ chain_height ∧
      move = if inst.block_sender.isSome then .send i h input else .run i h input := by
  unfold catch_up_if at hmem
  split at hmem
  · next inst hat =>
    split at hmem
    · next hselected =>
      unfold catch_up_single at hmem
      rw [hat] at hmem
      obtain ⟨block, hblock, rfl⟩ := List.mem_map.mp hmem
      exact ⟨inst, hat, hselected, block.1, block.2, behind_le (mem_replay hblock), rfl⟩
    · cases hmem
  · cases hmem

theorem mem_phase {height : UInt32} {input : Bytes} {selected : Indexers → IndexerInstance → Bool} {order : List Nat}
    {indexers : Indexers} {move : Move} (hmem : move ∈ phase height input selected order indexers) :
    ∃ i inst, move = .run i height input ∧ indexers[i]? = some inst ∧ selected indexers inst = true := by
  obtain ⟨i, _, hmove⟩ := List.mem_filterMap.mp hmem
  obtain ⟨rfl, inst, hat, hselected⟩ := run_selected_eq_some hmove
  exact ⟨i, inst, rfl, hat, hselected⟩

theorem stages_ready {event : Event} {stage : Stage} (hstage : stage ∈ event.stages .Synchronous) {before : Indexers}
    (hinline : Inline before) :
    (∀ step ∈ staged.steps (Move.apply runtime) (stage before) before, Ready (step.1, step.2)) ∧
      Inline (staged.after (Move.apply runtime) (stage before) before) := by
  have hquiet : ∀ moves : List Move, (∀ move ∈ moves, ∀ i h input, move ≠ .run i h input) →
      (∀ step ∈ staged.steps (Move.apply runtime) moves before, Ready (step.1, step.2)) ∧
        Inline (staged.after (Move.apply runtime) moves before) := by
    intro moves hmoves
    apply @staged.steps_forall _ _ (Move.apply runtime) Inline (fun now move => Ready (now, move)) moves _ before hinline
    intro move hmem now hnow
    refine ⟨?_, hnow.apply move⟩
    cases move with
    | run i h input => exact absurd rfl (hmoves _ hmem i h input)
    | send i height input | take i | set_paused i paused => exact True.intro
  have hsecondary : ∀ inst, secondary before inst = true → inst.depends_on = [] := fun inst => List.isEmpty_iff.mp
  have htertiary : ∀ height inst, tertiary height before inst = true →
      dependencies_satisfied before inst height = true := fun height inst h => (Bool.and_eq_true_iff.mp h).2
  cases event with
  | on_block_connected height block_data first second =>
    obtain rfl | hstage := List.mem_cons.mp hstage
    · apply steps_ready_secondary hinline
      intro move hmem inst hat
      obtain ⟨i, source, rfl, hsource, hselected⟩ := mem_phase hmem
      rw [show (Move.run i height _).target = i from rfl, hsource] at hat
      cases hat
      exact hsecondary inst hselected
    · obtain rfl := List.mem_singleton.mp hstage
      apply @steps_ready_tertiary runtime _ before hinline height
      · intro move hmem
        obtain ⟨i, inst, rfl, hat, hselected⟩ := mem_phase hmem
        exact ⟨i, height, _, inst, rfl, UInt32.le_refl _, hat, htertiary height inst hselected⟩
      · rintro move hmem other _ i at_height input rfl _ _ _ _ _
        obtain ⟨_, _, heq, _⟩ := mem_phase hmem
        cases heq
        exact UInt32.le_refl _
  | catch_up chain_height read_block first second =>
    obtain hstage | hstage := List.mem_append.mp hstage
    · obtain ⟨i, _, rfl⟩ := List.mem_map.mp hstage
      apply steps_ready_secondary hinline
      intro move hmem inst hat
      obtain ⟨source, hsource, hselected, h, input, _, rfl⟩ := mem_catch_up_if hmem
      rw [(hinline i source hsource).1] at hat
      rw [show (if (none : Option (List (UInt32 × Bytes))).isSome then Move.send i h input else .run i h input).target
        = i from rfl, hsource] at hat
      cases hat
      exact hsecondary inst hselected
    · obtain ⟨i, _, rfl⟩ := List.mem_map.mp hstage
      have hrun : ∀ move ∈ catch_up_if (tertiary chain_height) chain_height read_block i before,
          ∃ inst h input, before[i]? = some inst ∧ tertiary chain_height before inst = true ∧ h ≤ chain_height ∧
            move = .run i h input := by
        intro move hmem
        obtain ⟨inst, hat, hselected, h, input, hle, rfl⟩ := mem_catch_up_if hmem
        refine ⟨inst, h, input, hat, hselected, hle, ?_⟩
        rw [(hinline i inst hat).1]
        rfl
      apply @steps_ready_tertiary runtime _ before hinline chain_height
      · intro move hmem
        obtain ⟨inst, h, input, hat, hselected, hle, rfl⟩ := hrun move hmem
        exact ⟨i, h, input, inst, rfl, hle, hat, htertiary chain_height inst hselected⟩
      · rintro move hmem other hother j at_height input rfl source hsource inst hat hlabel
        obtain ⟨_, _, _, _, _, _, heq⟩ := hrun _ hmem
        obtain ⟨_, _, _, _, _, _, rfl⟩ := hrun other hother
        cases heq
        rw [show (Move.run i _ _).target = i from rfl, hsource] at hat
        cases hat
        exact absurd hlabel (hinline i source hsource).2
  | pause label | resume label =>
    obtain rfl := List.mem_singleton.mp hstage
    apply hquiet
    rintro move hmem i h input rfl
    obtain ⟨k, _, hmove⟩ := List.mem_filterMap.mp hmem
    split at hmove
    · split at hmove <;> cases hmove
    · cases hmove
  | work i =>
    obtain rfl := List.mem_singleton.mp hstage
    have hidle : worker i before = [] := by
      unfold worker
      split
      · next inst hat => rw [(hinline i inst hat).1]
      · rfl
    rw [hidle]
    exact hquiet [] nofun

/-- What the check of the dependencies looks at. -/
def IndexerInstance.seen (self : IndexerInstance) : String × UInt32 := (self.label, self.tip_height)

theorem map_seen_apply {move : Move} (hmove : ∀ inst, (move.change runtime inst).seen = inst.seen) (indexers : Indexers) :
    (move.apply runtime indexers).map IndexerInstance.seen = indexers.map IndexerInstance.seen := by
  apply List.ext_getElem?
  intro j
  rw [List.getElem?_map, List.getElem?_map, Move.getElem?_apply]
  split
  · rw [Option.map_map]
    exact congrArg (fun f => Option.map f indexers[j]?) (funext hmove)
  · rfl

theorem dependencies_satisfied_of_seen {indexers others : Indexers}
    (hseen : indexers.map IndexerInstance.seen = others.map IndexerInstance.seen) {inst other : IndexerInstance}
    (hdeps : inst.depends_on = other.depends_on) {height : UInt32}
    (hsatisfied : dependencies_satisfied indexers inst height = true) :
    dependencies_satisfied others other height = true := by
  have hview : ∀ (indexers : Indexers) (dep_label : String),
      (indexers.map IndexerInstance.seen).find? (fun dep => dep.1 == dep_label) =
        (indexers.find? fun dep => dep.label == dep_label).map IndexerInstance.seen :=
    fun _ _ => List.find?_map
  rw [dependencies_satisfied_iff] at hsatisfied ⊢
  rw [← hdeps]
  intro dep_label hmem
  obtain ⟨dep, hfind, htip⟩ := hsatisfied dep_label hmem
  have hother := hview others dep_label
  rw [← hseen, hview, hfind, Option.map_some, eq_comm, Option.map_eq_some_iff] at hother
  obtain ⟨found, hfound, heq⟩ := hother
  refine ⟨found, hfound, ?_⟩
  rw [show found.tip_height = dep.tip_height from congrArg Prod.snd heq]
  exact htip

/-- A loaded manager in asynchronous mode queues a block for an indexer, and its worker
    runs it before the others have done anything. -/
theorem worker_runs_first {manager : IndexerManager} (hloaded : Loaded manager) (hmode : manager.mode = .Async) {i : Nat}
    {inst : IndexerInstance} (hat : manager.indexers[i]? = some inst) {height : UInt32}
    (hstart : inst.start_height ≤ height) (block_data : Bytes) :
    ∃ before input now, (before, Move.run i height input) ∈ staged.trace (Move.apply runtime)
        (program manager.mode [.on_block_connected height block_data [] [], .work i]) manager.indexers ∧
      before[i]? = some now ∧ now.depends_on = inst.depends_on ∧
      before.map IndexerInstance.seen = manager.indexers.map IndexerInstance.seen := by
  let input := littleEndian.toBytes 4 height.toNat ++ block_data
  let queued := staged.after (Move.apply runtime) (send_all height input manager.indexers) manager.indexers
  have hmem : inst ∈ manager.indexers := List.mem_of_getElem? hat
  have hsender : inst.block_sender = some [] := by rw [hloaded.block_sender inst hmem, if_pos hmode]
  have hwait : ¬ height < inst.start_height := UInt32.not_lt.mpr hstart
  have hgo : (decide (height < inst.start_height) || inst.paused) = false := by
    rw [hloaded.paused inst hmem, decide_eq_false hwait]
    rfl
  have hqueued : queued[i]? = some { inst with block_sender := some [(height, input)] } := by
    have hlt : i < manager.indexers.length := (List.getElem?_eq_some_iff.mp hat).1
    show (staged.after _ (send_all _ _ _) _)[i]? = _
    unfold send_all
    rw [after_filterMap _ List.nodup_range, if_pos (List.mem_range.mpr hlt), hat]
    · simp [hgo, Move.change, hsender]
    · intro k move hmove
      split at hmove
      · split at hmove
        · cases hmove
        · cases hmove
          rfl
      · cases hmove
  have hseen : queued.map IndexerInstance.seen = manager.indexers.map IndexerInstance.seen := by
    apply (@staged.steps_forall _ _ (Move.apply runtime)
      (fun now => now.map IndexerInstance.seen = manager.indexers.map IndexerInstance.seen) (fun _ _ => True)
      (send_all height input manager.indexers) _ manager.indexers rfl).2
    intro move hmove now hnow
    refine ⟨True.intro, (map_seen_apply ?_ now).trans hnow⟩
    obtain ⟨k, _, hmove⟩ := List.mem_filterMap.mp hmove
    split at hmove
    · split at hmove
      · cases hmove
      · cases hmove
        exact fun _ => rfl
    · cases hmove
  have hworker : worker i queued = [.take i, .run i height input] := by
    unfold worker
    rw [hqueued]
    dsimp only
    rw [Bool.or_comm, hgo]
    rfl
  refine ⟨(Move.take i).apply runtime queued, input, { inst with block_sender := some [] }, ?_, ?_, rfl, ?_⟩
  · rw [hmode]
    show _ ∈ staged.steps _ (send_all height input manager.indexers) manager.indexers ++
      (staged.steps _ (worker i queued) queued ++ [])
    rw [hworker]
    apply List.mem_append_right
    apply List.mem_append_left
    exact List.mem_cons_of_mem _ List.mem_cons_self
  · rw [Move.getElem?_apply, if_pos (show (Move.take i).target = i from rfl), hqueued]
    rfl
  · exact (map_seen_apply (fun _ => rfl) queued).trans hseen

theorem dependencies_out_of_reach {manager : IndexerManager} (hloaded : Loaded manager) {inst : IndexerInstance}
    (hdeps : inst.depends_on ≠ []) :
    ∃ height, inst.start_height ≤ height ∧ dependencies_satisfied manager.indexers inst height = false := by
  obtain ⟨dep_label, hmem⟩ := List.exists_mem_of_ne_nil _ hdeps
  have hfail : ∀ height, (∀ dep, manager.indexers.find? (fun dep => dep.label == dep_label) = some dep →
      dep.tip_height < height) → dependencies_satisfied manager.indexers inst height = false := by
    intro height hlow
    rw [← Bool.not_eq_true, dependencies_satisfied_iff]
    intro hall
    obtain ⟨dep, hfind, htip⟩ := hall dep_label hmem
    exact UInt32.not_lt.mpr htip (hlow dep hfind)
  cases hfind : manager.indexers.find? fun dep => dep.label == dep_label with
  | none =>
    refine ⟨inst.start_height, UInt32.le_refl _, hfail _ ?_⟩
    rw [hfind]
    exact nofun
  | some dep =>
    have htip := hloaded.tip_height dep (List.mem_of_find?_eq_some hfind)
    have hnext : (dep.tip_height + 1).toNat = dep.tip_height.toNat + 1 := by
      rw [UInt32.toNat_add]
      exact Nat.mod_eq_of_lt htip
    have hlow : ∀ height, dep.tip_height.toNat + 1 ≤ height.toNat →
        ∀ other, manager.indexers.find? (fun dep => dep.label == dep_label) = some other → other.tip_height < height := by
      rw [hfind]
      rintro height hle _ ⟨⟩
      rw [UInt32.lt_iff_toNat_lt]
      omega
    by_cases hearly : inst.start_height.toNat ≤ dep.tip_height.toNat
    · refine ⟨dep.tip_height + 1, ?_, hfail _ (hlow _ (by omega))⟩
      rw [UInt32.le_iff_toNat_le]
      omega
    · exact ⟨inst.start_height, UInt32.le_refl _, hfail _ (hlow _ (by omega))⟩

/-- Every run of every order of calls and worker steps comes after the dependencies, if
    and only if the manager is in synchronous mode or no indexer has dependencies. -/
theorem runs_after_dependencies_iff {manager : IndexerManager} (hloaded : Loaded manager) :
    (∀ events, ∀ step ∈ staged.trace (Move.apply runtime) (program manager.mode events) manager.indexers, Ready step) ↔
      manager.mode = .Synchronous ∨ ∀ inst ∈ manager.indexers, inst.depends_on = [] := by
  constructor
  · intro hall
    by_contra hneither
    rw [not_or] at hneither
    obtain ⟨hmode, hnone⟩ := hneither
    have hmode : manager.mode = .Async := by
      cases hm : manager.mode with
      | Async => rfl
      | Synchronous => exact absurd hm hmode
    push Not at hnone
    obtain ⟨inst, hmem, hdeps⟩ := hnone
    obtain ⟨i, hi⟩ := List.mem_iff_getElem?.mp hmem
    obtain ⟨height, hstart, hfail⟩ := dependencies_out_of_reach hloaded hdeps
    obtain ⟨before, input, now, hstep, hnow, hsame, hseen⟩ :=
      @worker_runs_first runtime manager hloaded hmode i inst hi height hstart []
    have hready := hall _ _ hstep now hnow
    have hsatisfied := dependencies_satisfied_of_seen hseen hsame hready
    rw [hfail] at hsatisfied
    cases hsatisfied
  · rintro (hmode | hnone) events
    · have hinline : Inline manager.indexers := by
        intro j inst hat
        have hmem : inst ∈ manager.indexers := List.mem_of_getElem? hat
        refine ⟨?_, fun hself => hloaded.acyclic inst.label (.single ⟨inst, hmem, rfl, hself⟩)⟩
        rw [hloaded.block_sender inst hmem, hmode]
        rfl
      apply (@staged.trace_forall _ _ (Move.apply runtime) Inline (fun now move => Ready (now, move)) _ _ _ hinline).1
      intro stage hstage before hbefore
      rw [hmode] at hstage
      obtain ⟨event, _, hstage⟩ := List.mem_flatMap.mp hstage
      exact stages_ready hstage hbefore
    · have hbefore : ∀ step ∈ staged.trace (Move.apply runtime) (program manager.mode events) manager.indexers,
          ∀ (j : Nat) (inst : IndexerInstance), step.1[j]? = some inst → inst.depends_on = [] := by
        apply (@staged.trace_always _ _ (Move.apply runtime)
          (fun now => ∀ (j : Nat) (inst : IndexerInstance), now[j]? = some inst → inst.depends_on = []) _ _ _ _).1
        · intro now move hnow j inst hat
          cases hold : now[j]? with
          | none =>
            have hconfig := @Move.getElem?_config runtime move now j
            rw [hat, hold] at hconfig
            cases hconfig
          | some old => rw [(depends_on_of_config (move.getElem?_config now j) hold hat).2, hnow j old hold]
        · exact fun j inst hat => hnone inst (List.mem_of_getElem? hat)
      intro step hstep
      exact ready_of_no_dependencies fun inst hat => hbefore step hstep _ inst hat

def always : Runtime := fun _ _ _ => true

/-- Two indexers over fresh databases, of which one depends on the other. -/
def layered (mode : IndexerMode) : IndexerManager :=
  { mode, indexers := [.new always "blocks" 0 [] mode, .new always "ledger" 0 ["blocks"] mode] }

theorem layered_loaded (mode : IndexerMode) : Loaded (layered mode) where
  acyclic := by
    have hdepends : ∀ label dep_label, DependsOn (layered mode).indexers label dep_label →
        label = "ledger" ∧ dep_label = "blocks" := by
      rintro label dep_label ⟨inst, hmem, rfl, hdep⟩
      obtain rfl | hmem := List.mem_cons.mp hmem
      · cases hdep
      · obtain rfl := List.mem_singleton.mp hmem
        exact ⟨rfl, List.mem_singleton.mp hdep⟩
    intro label hcycle
    obtain ⟨_, hfirst, _⟩ := TransGen.head'_iff.mp hcycle
    obtain ⟨_, _, hlast⟩ := TransGen.tail'_iff.mp hcycle
    have hledger := (hdepends _ _ hfirst).1
    have hblocks := (hdepends _ _ hlast).2
    rw [hledger] at hblocks
    exact absurd hblocks (by decide)
  paused inst hmem := by
    obtain rfl | hmem := List.mem_cons.mp hmem
    · rfl
    · obtain rfl := List.mem_singleton.mp hmem
      rfl
  block_sender inst hmem := by
    obtain rfl | hmem := List.mem_cons.mp hmem
    · cases mode <;> rfl
    · obtain rfl := List.mem_singleton.mp hmem
      cases mode <;> rfl
  tip_height inst hmem := by
    obtain rfl | hmem := List.mem_cons.mp hmem
    · cases mode <;> decide +kernel
    · obtain rfl := List.mem_singleton.mp hmem
      cases mode <;> decide +kernel

/-- In synchronous mode the two indexers run in their order. -/
theorem runs_after_dependencies_layered :
    Loaded (layered .Synchronous) ∧ ∀ events, ∀ step ∈ staged.trace (Move.apply always)
      (program .Synchronous events) (layered .Synchronous).indexers, Ready step :=
  ⟨layered_loaded .Synchronous, (runs_after_dependencies_iff (layered_loaded .Synchronous)).mpr (.inl rfl)⟩

/-- In asynchronous mode the worker of the one that depends on the other may run first. -/
theorem runs_after_dependencies_fails :
    Loaded (layered .Async) ∧ ∃ step ∈ staged.trace (Move.apply always)
      (program .Async [.on_block_connected 1 [0x00] [] [], .work 1]) (layered .Async).indexers, ¬ Ready step := by
  refine ⟨layered_loaded .Async, ?_⟩
  obtain ⟨before, input, now, hstep, hnow, hdeps, hseen⟩ :=
    @worker_runs_first always _ (layered_loaded .Async) rfl 1 _ rfl 1 (by decide +kernel) [0x00]
  refine ⟨_, hstep, fun hready => ?_⟩
  have hsatisfied := dependencies_satisfied_of_seen hseen hdeps (hready now hnow)
  exact absurd hsatisfied (by decide +kernel)

end qubitcoin.indexer
