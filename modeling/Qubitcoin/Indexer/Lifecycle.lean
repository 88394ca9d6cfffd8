import Qubitcoin.Lib.Trace
import Qubitcoin.Indexer.Manager

/-! `qubitcoin-indexer/lib.rs`: the runs of the indexers as the calls of a manager and
    its worker threads make them, one run at a time. -/

namespace qubitcoin.indexer

abbrev Indexers := List IndexerInstance

/-- One thing that happens to the indexer at a position. -/
inductive Move where
  | run (i : Nat) (height : UInt32) (input : Bytes)
  | send (i : Nat) (height : UInt32) (input : Bytes)
  | take (i : Nat)
  | set_paused (i : Nat) (paused : Bool)
  deriving DecidableEq, Repr

def edit (i : Nat) (change : IndexerInstance → IndexerInstance) (indexers : Indexers) : Indexers :=
  match indexers[i]? with
  | some inst => indexers.set i (change inst)
  | none => indexers

variable (runtime : Runtime)

/-- The position of the indexer that a move is about. -/
def Move.target : Move → Nat
  | .run i _ _ | .send i _ _ | .take i | .set_paused i _ => i

def Move.change (inst : IndexerInstance) : Move → IndexerInstance
  | .run _ height input => run_indexer_block runtime inst height input
  | .send _ height input =>
    { inst with block_sender := inst.block_sender.map fun queue => queue ++ [(height, input)] }
  | .take _ => { inst with block_sender := inst.block_sender.map List.tail }
  | .set_paused _ paused => { inst with paused }

def Move.apply (self : Move) (indexers : Indexers) : Indexers :=
  edit self.target (fun inst => self.change runtime inst) indexers

abbrev Stage := Indexers → List Move

/-- The run of an indexer in a phase, unless it waits for a later block or is paused. -/
def run_selected (height : UInt32) (input : Bytes) (selected : IndexerInstance → Bool) (indexers : Indexers) (i : Nat) :
    Option Move :=
  match indexers[i]? with
  | some inst =>
    if selected inst && !(decide (height < inst.start_height) || inst.paused) then some (.run i height input) else none
  | none => none

/-- The runs of a phase, in the order the threads start them. -/
def phase (height : UInt32) (input : Bytes) (selected : Indexers → IndexerInstance → Bool) (order : List Nat) : Stage :=
  fun indexers => order.filterMap (run_selected height input (selected indexers) indexers)

/-- The blocks that a call queues for the workers. -/
def send_all (height : UInt32) (input : Bytes) : Stage :=
  fun indexers => (List.range indexers.length).filterMap fun i =>
    match indexers[i]? with
    | some inst =>
      if decide (height < inst.start_height) || inst.paused then none else some (.send i height input)
    | none => none

/-- A worker takes the next block of its queue, and runs its indexer on it. -/
def worker (i : Nat) : Stage :=
  fun indexers =>
    match indexers[i]? with
    | some inst =>
      match inst.block_sender with
      | some ((height, input) :: _) =>
        if inst.paused || decide (height < inst.start_height) then [.take i]
        else [.take i, .run i height input]
      | _ => []
    | none => []

/-- The database of the indexer has the height of a block in it. -/
def IndexerInstance.has_processed (self : IndexerInstance) : Bool :=
  decide (0 < self.tip_height) || !self.processed.isEmpty

/-- The heights that a catch-up goes over. -/
def IndexerInstance.behind (self : IndexerInstance) (chain_height : UInt32) : List UInt32 :=
  let effective_start := if self.has_processed then self.tip_height + 1 else self.start_height
  (List.range' effective_start.toNat (chain_height.toNat + 1 - effective_start.toNat)).map UInt32.ofNat

/-- The blocks of a catch-up, up to the first one that cannot be read. -/
def replay (read_block : UInt32 → Option Bytes) : List UInt32 → List (UInt32 × Bytes)
  | [] => []
  | h :: rest =>
    match read_block h with
    | some block_data => (h, littleEndian.toBytes 4 h.toNat ++ block_data) :: replay read_block rest
    | none => []

def catch_up_single (chain_height : UInt32) (read_block : UInt32 → Option Bytes) (i : Nat) : Stage :=
  fun indexers =>
    match indexers[i]? with
    | some inst => (replay read_block (inst.behind chain_height)).map fun block =>
      if inst.block_sender.isSome then .send i block.1 block.2 else .run i block.1 block.2
    | none => []

/-- Catch up the indexer at a position, if it is one of those selected. -/
def catch_up_if (selected : Indexers → IndexerInstance → Bool) (chain_height : UInt32)
    (read_block : UInt32 → Option Bytes) (i : Nat) : Stage :=
  fun indexers =>
    match indexers[i]? with
    | some inst => if selected indexers inst then catch_up_single chain_height read_block i indexers else []
    | none => []

/-- A call of the manager, or a step of a worker. The orders are those in which the hash
    map gives the indexers out, or in which the threads of a phase start. -/
inductive Event where
  | on_block_connected (height : UInt32) (block_data : Bytes) (first second : List Nat)
  | catch_up (chain_height : UInt32) (read_block : UInt32 → Option Bytes) (first second : List Nat)
  | pause (label : String)
  | resume (label : String)
  | work (i : Nat)

/-- The pause flag of the indexer with a label. -/
def set_paused (label : String) (paused : Bool) : Stage :=
  fun indexers => (List.range indexers.length).filterMap fun i =>
    match indexers[i]? with
    | some inst => if inst.label = label then some (.set_paused i paused) else none
    | none => none

/-- Those without dependencies. -/
def secondary (_ : Indexers) (inst : IndexerInstance) : Bool := inst.depends_on.isEmpty

/-- Those with dependencies, all of which have reached the height. -/
def tertiary (height : UInt32) (indexers : Indexers) (inst : IndexerInstance) : Bool :=
  !inst.depends_on.isEmpty && dependencies_satisfied indexers inst height

def Event.stages (mode : IndexerMode) : Event → List Stage
  | .on_block_connected height block_data first second =>
    let input := littleEndian.toBytes 4 height.toNat ++ block_data
    match mode with
    | .Async => [send_all height input]
    | .Synchronous => [phase height input secondary first, phase height input (tertiary height) second]
  | .catch_up chain_height read_block first second =>
    first.map (catch_up_if secondary chain_height read_block) ++
      second.map (match mode with
        | .Async => catch_up_if (fun _ inst => !inst.depends_on.isEmpty) chain_height read_block
        | .Synchronous => catch_up_if (tertiary chain_height) chain_height read_block)
  | .pause label => [set_paused label true]
  | .resume label => [set_paused label false]
  | .work i => [worker i]

def program (mode : IndexerMode) (events : List Event) : List Stage := events.flatMap (Event.stages mode)

theorem getElem?_edit (i j : Nat) (change : IndexerInstance → IndexerInstance) (indexers : Indexers) :
    (edit i change indexers)[j]? = if i = j then indexers[j]?.map change else indexers[j]? := by
  unfold edit
  cases hat : indexers[i]? with
  | none =>
    dsimp only
    split
    · next hsame => rw [← hsame, hat, Option.map_none]
    · rfl
  | some inst =>
    rw [List.getElem?_set]
    split
    · next hsame =>
      have hlt : i < indexers.length := (List.getElem?_eq_some_iff.mp hat).1
      rw [if_pos hlt, ← hsame, hat, Option.map_some]
    · rfl

def IndexerInstance.config (self : IndexerInstance) : String × UInt32 × List String :=
  (self.label, self.start_height, self.depends_on)

variable {runtime}

def payload (input : Bytes) : Bytes := if 4 < input.length then input.drop 4 else input

theorem run_indexer_block_eq (inst : IndexerInstance) (height : UInt32) (input : Bytes) :
    run_indexer_block runtime inst height input =
      if runtime inst height (payload input) then
        { inst with tip_height := height, processed := inst.processed ++ [(height, payload input)] }
      else inst := rfl

theorem Move.getElem?_apply (move : Move) (indexers : Indexers) (j : Nat) :
    (move.apply runtime indexers)[j]? =
      if move.target = j then indexers[j]?.map (fun inst => move.change runtime inst) else indexers[j]? :=
  getElem?_edit _ _ _ _

theorem Move.change_config (move : Move) (inst : IndexerInstance) : (move.change runtime inst).config = inst.config := by
  cases move with
  | run i height input =>
    rw [Move.change, run_indexer_block_eq]
    split <;> rfl
  | send i height input | take i | set_paused i paused => rfl

theorem Move.getElem?_config (move : Move) (indexers : Indexers) (j : Nat) :
    (move.apply runtime indexers)[j]?.map IndexerInstance.config = indexers[j]?.map IndexerInstance.config := by
  rw [Move.getElem?_apply]
  split
  · cases indexers[j]? with
    | none => rfl
    | some inst => exact congrArg some (move.change_config inst)
  · rfl

theorem after_filterMap {f : Nat → Option Move} (htarget : ∀ {i move}, f i = some move → move.target = i)
    {order : List Nat} (hnodup : order.Nodup) (indexers : Indexers) (j : Nat) :
    (staged.after (Move.apply runtime) (order.filterMap f) indexers)[j]? =
      if j ∈ order then
        indexers[j]?.map fun inst => ((f j).map fun move => move.change runtime inst).getD inst
      else indexers[j]? := by
  induction order generalizing indexers with
  | nil => rfl
  | cons i order ih =>
    rw [List.nodup_cons] at hnodup
    rw [List.filterMap_cons]
    cases hmove : f i with
    | none =>
      dsimp only
      rw [ih hnodup.2]
      by_cases hj : j = i
      · subst hj
        rw [if_neg hnodup.1, if_pos List.mem_cons_self, hmove]
        exact Option.map_id'.symm
      · simp only [List.mem_cons, hj, false_or]
    | some move =>
      have hstep := ih hnodup.2 (move.apply runtime indexers)
      rw [Move.getElem?_apply, htarget hmove] at hstep
      refine hstep.trans ?_
      by_cases hj : j = i
      · subst hj
        rw [if_neg hnodup.1, if_pos List.mem_cons_self, if_pos rfl, hmove]
        rfl
      · have hne : ¬ i = j := fun heq => hj heq.symm
        simp only [List.mem_cons, hj, hne, false_or, if_false]

theorem run_selected_eq_some {height : UInt32} {input : Bytes} {selected : IndexerInstance → Bool} {indexers : Indexers}
    {i : Nat} {move : Move} (hmove : run_selected height input selected indexers i = some move) :
    move = .run i height input ∧ ∃ inst, indexers[i]? = some inst ∧ selected inst = true := by
  unfold run_selected at hmove
  split at hmove
  · next inst hat =>
    split at hmove
    · next hselected =>
      cases hmove
      exact ⟨rfl, inst, hat, (Bool.and_eq_true_iff.mp hselected).1⟩
    · cases hmove
  · cases hmove

theorem after_phase {height : UInt32} {input : Bytes} {selected : Indexers → IndexerInstance → Bool} {order : List Nat}
    (hnodup : order.Nodup) (indexers : Indexers) (j : Nat) :
    (staged.after (Move.apply runtime) (phase height input selected order indexers) indexers)[j]? =
      if j ∈ order then (run_phase runtime height input (selected indexers) indexers)[j]? else indexers[j]? := by
  have htarget : ∀ {i move}, run_selected height input (selected indexers) indexers i = some move → move.target = i := by
    intro i move hmove
    obtain ⟨rfl, _⟩ := run_selected_eq_some hmove
    rfl
  unfold phase run_phase
  rw [after_filterMap htarget hnodup, List.getElem?_map]
  cases hat : indexers[j]? with
  | none => rfl
  | some inst =>
    rw [Option.map_some, Option.map_some, run_selected, hat]
    dsimp only
    split
    · split <;> rfl
    · rfl

/-- In synchronous mode the stages of a new block do what the call does, in whatever
    orders the threads of the phases start. -/
theorem finish_on_block_connected {manager : IndexerManager} (hmode : manager.mode = .Synchronous) {first second : List Nat}
    (hfirst : first.Perm (List.range manager.indexers.length)) (hsecond : second.Perm (List.range manager.indexers.length))
    (height : UInt32) (block_data : Bytes) :
    staged.finish (Move.apply runtime) ((Event.on_block_connected height block_data first second).stages manager.mode)
      manager.indexers = (manager.on_block_connected runtime height block_data).indexers := by
  have hphase : ∀ (selected : Indexers → IndexerInstance → Bool) {order : List Nat} (indexers : Indexers),
      order.Perm (List.range indexers.length) →
      staged.after (Move.apply runtime)
        (phase height (littleEndian.toBytes 4 height.toNat ++ block_data) selected order indexers) indexers =
        run_phase runtime height (littleEndian.toBytes 4 height.toNat ++ block_data) (selected indexers) indexers := by
    intro selected order indexers hperm
    apply List.ext_getElem?
    intro j
    rw [after_phase (hperm.nodup_iff.mpr List.nodup_range)]
    split
    · rfl
    · next hout =>
      have hlong : indexers.length ≤ j := by
        rw [hperm.mem_iff, List.mem_range] at hout
        omega
      have hlength : (run_phase runtime height (littleEndian.toBytes 4 height.toNat ++ block_data)
        (selected indexers) indexers).length = indexers.length := List.length_map _
      rw [List.getElem?_eq_none hlong, List.getElem?_eq_none (hlength.trans_le hlong)]
  unfold IndexerManager.on_block_connected Event.stages
  rw [hmode]
  dsimp only
  unfold staged.finish
  rw [hphase secondary manager.indexers hfirst]
  unfold staged.finish
  rw [hphase (tertiary height)]
  · rfl
  · have hlength : (run_phase runtime height (littleEndian.toBytes 4 height.toNat ++ block_data)
      (secondary manager.indexers) manager.indexers).length = manager.indexers.length := List.length_map _
    rw [hlength]
    exact hsecond

/-- An indexer and one that depends on it. -/
def blocks_and_ledger : IndexerManager :=
  { mode := .Synchronous
    indexers := [⟨"blocks", 0, 1, [], false, none, []⟩, ⟨"ledger", 0, 1, ["blocks"], false, none, []⟩] }

theorem finish_on_block_connected_backwards :
    staged.finish (Move.apply fun _ _ _ => true) ((Event.on_block_connected 1 [0x07] [1, 0] [1, 0]).stages .Synchronous)
      blocks_and_ledger.indexers = (blocks_and_ledger.on_block_connected (fun _ _ _ => true) 1 [0x07]).indexers :=
  @finish_on_block_connected _ blocks_and_ledger rfl _ _ (by decide) (by decide) 1 [0x07]

end qubitcoin.indexer
