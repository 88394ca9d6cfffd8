import Qubitcoin.Chainstate.Persist

/-! Which blocks are connected without their scripts: the assume-valid block and its ancestors,
    in an index that has grown and has been loaded again in any way. -/

open qubitcoin primitives transaction block coins chain validation_state chainparams
  qubitcoin.validation block_index_db parentTree transition

namespace qubitcoin.chainstate

namespace ChainstateManager

variable {self : ChainstateManager}

/-- The entry is the assume-valid block, or that block is in the index and the entry is one of
    its ancestors by parent links. -/
def Assumed (self : ChainstateManager) (idx : Nat) : Prop :=
  ∃ hash, self.assume_valid = some hash ∧
    ((self.entry idx).block_hash = hash ∨
      ∃ assume_idx n, self.block_index.find_by_hash hash = some assume_idx ∧
        ancestor (parent_of self.arena) n assume_idx = some idx)

theorem Indexed.should_skip_scripts_iff (hindexed : self.Indexed) (idx : Nat) :
    self.should_skip_scripts idx = true ↔ self.Assumed idx := by
  have htree := hindexed.tree
  unfold should_skip_scripts Assumed
  cases self.assume_valid with
  | none => exact ⟨nofun, nofun⟩
  | some hash =>
    simp only [Option.some.injEq, exists_eq_left', beq_iff_eq]
    by_cases hself : (self.entry idx).block_hash = hash
    · simp [hself]
    rw [if_neg hself]
    simp only [hself, false_or]
    cases hfound : self.block_index.find_by_hash hash with
    | none => exact ⟨nofun, nofun⟩
    | some assume_idx =>
      have hlt := hindexed.find_lt hfound
      have hassume : (self.entry assume_idx).height = height_of self.arena assume_idx :=
        htree.height_eq (getElem?_entry hlt)
      dsimp only
      have hanc := htree.get_ancestor_eq hlt (self.entry idx).height
      rw [show self.block_index.indices = self.arena from rfl, hanc]
      constructor
      · intro hskip
        split at hskip
        · cases hskip
        · split at hskip
          · exact ⟨assume_idx, _, rfl, beq_iff_eq.mp hskip⟩
          · cases hskip
      · rintro ⟨other, n, hother, hpath⟩
        cases hother
        have hidx : idx < self.arena.length := (htree.ancestor_le hpath).trans_lt hlt
        have hheight : (self.entry idx).height = height_of self.arena idx := htree.height_eq (getElem?_entry hidx)
        have hdeep := htree.ancestor_deep hpath
        have hlevel := htree.leveled.height_ancestor hdeep hpath
        rw [if_neg (by omega), if_pos (by omega), beq_iff_eq, ← hpath]
        congr 1
        omega

theorem Updates.assumed_iff {after : ChainstateManager} (hupdates : Updates self after) (idx : Nat) :
    after.Assumed idx ↔ self.Assumed idx := by
  have hfind : ∀ hash, after.block_index.find_by_hash hash = self.block_index.find_by_hash hash := fun hash =>
    congrArg (fun map : HashMap BlockHash Nat => map.lookup hash) hupdates.by_hash
  unfold Assumed
  simp only [hupdates.assume_valid, hupdates.block_hash, hfind, hupdates.parent_of]

variable (env : Env)

def connect_loop_calls (block_reader : BlockReader) (just_connected : Option Nat) (new_chain : List Nat) :
    List Int → ChainstateManager → List (ChainstateManager × Nat)
  | [], _ => []
  | h :: rest, self =>
    match new_chain[h.toNat]? with
    | none => []
    | some idx =>
      if just_connected = some idx then connect_loop_calls block_reader just_connected new_chain rest self
      else
        (self, idx) ::
          match self.connect_at env block_reader h idx with
          | (.error _, _) => []
          | (.ok (), self) => connect_loop_calls block_reader just_connected new_chain rest self

def reorganize_calls (self : ChainstateManager) (block_reader : BlockReader) (just_connected : Option Nat)
    (best_idx : Nat) : List (ChainstateManager × Nat) :=
  let new_chain := self.build_chain_path best_idx
  let current_height := self.chain.height
  let fork_height := self.find_fork_height new_chain current_height
  match self.disconnect_loop block_reader (heights_down fork_height current_height) self.coins_tip with
  | .error _ => []
  | .ok coins_tip =>
    connect_loop_calls env block_reader just_connected new_chain
      (heights_up fork_height (self.entry best_idx).height) { self with coins_tip }

def activate_calls (self : ChainstateManager) (block_reader : BlockReader) (just_connected : Option Nat) :
    List (ChainstateManager × Nat) :=
  match self.best_valid_tip with
  | none => []
  | some (best_idx, _) =>
    if self.chain.tip = some best_idx then [] else self.reorganize_calls env block_reader just_connected best_idx

/-- The new block first, then the blocks of the path to the best tip. -/
def new_block_calls (self : ChainstateManager) (block : Block) (now : Int) (block_reader : BlockReader) :
    List (ChainstateManager × Nat) :=
  match self.at_connect env block now with
  | none => []
  | some (idx, mid) =>
    (mid, idx) ::
      match mid.connect_new_block env block idx with
      | (.error _, _) => []
      | (.ok _, coins_tip) => (mid.connected idx coins_tip).activate_calls env block_reader (some idx)

/-- The managers from which an event connects an entry to the coins, with the entry. -/
def connect_calls (self : ChainstateManager) : Event → List (ChainstateManager × Nat)
  | .block block now block_reader => self.new_block_calls env block now block_reader
  | _ => []

/-- What connects entries only updates the index, from one call to the next, and makes no other
    entry valid. -/
structure Connects (before : ChainstateManager) (calls : List (ChainstateManager × Nat)) (after : ChainstateManager) :
    Prop where
  updates : ∀ call ∈ calls, Updates before call.1 ∧ Updates call.1 after
  valid : ∀ idx, after.valid_at idx = true → before.valid_at idx = true ∨ ∃ mid, (mid, idx) ∈ calls

theorem Connects.nil {after : ChainstateManager} (hvalid : ∀ idx, after.valid_at idx = true → self.valid_at idx = true) :
    Connects self [] after :=
  ⟨fun _ hmem => (List.not_mem_nil hmem).elim, fun idx hidx => .inl (hvalid idx hidx)⟩

theorem Connects.cons {mid after : ChainstateManager} {idx : Nat} {calls : List (ChainstateManager × Nat)}
    (hstep : Updates self mid) (hkeeps : ∀ i, idx ≠ i → mid.valid_at i = true → self.valid_at i = true)
    (hrest : Connects mid calls after) (hafter : Updates mid after) : Connects self ((self, idx) :: calls) after := by
  constructor
  · intro call hmem
    obtain rfl | hmem := List.mem_cons.mp hmem
    · exact ⟨.refl self, hstep.trans hafter⟩
    · obtain ⟨hbefore, hlater⟩ := hrest.updates call hmem
      exact ⟨hstep.trans hbefore, hlater⟩
  · intro i hi
    obtain hmid | ⟨other, hmem⟩ := hrest.valid i hi
    · by_cases heq : idx = i
      · subst heq
        exact .inr ⟨self, List.mem_cons_self ..⟩
      · exact .inl (hkeeps i heq hmid)
    · exact .inr ⟨other, List.mem_cons_of_mem _ hmem⟩

theorem Connects.within {before after last : ChainstateManager} {calls : List (ChainstateManager × Nat)}
    (hcalls : Connects self calls after) (hbefore : Updates before self) (hlast : Updates after last)
    (hvalid : ∀ idx, self.valid_at idx = true → before.valid_at idx = true)
    (hkept : ∀ idx, last.valid_at idx = true → after.valid_at idx = true) : Connects before calls last := by
  constructor
  · intro call hmem
    obtain ⟨hfirst, hsecond⟩ := hcalls.updates call hmem
    exact ⟨hbefore.trans hfirst, hsecond.trans hlast⟩
  · intro idx hidx
    exact (hcalls.valid idx (hkept idx hidx)).imp_left (hvalid idx)

theorem valid_at_of_getElem? {before after : ChainstateManager} {idx : Nat}
    (hsame : after.arena[idx]? = before.arena[idx]?) : after.valid_at idx = before.valid_at idx := by
  have hentry : after.entry idx = before.entry idx := by
    change after.arena.getD idx .new = before.arena.getD idx .new
    rw [List.getD_eq_getElem?_getD, List.getD_eq_getElem?_getD, hsame]
  rw [valid_at, valid_at, hentry]

theorem connect_loop_connects (block_reader : BlockReader) (just_connected : Option Nat) (new_chain : List Nat)
    (heights : List Int) : ∀ self : ChainstateManager,
      Connects self (connect_loop_calls env block_reader just_connected new_chain heights self)
        (connect_loop env block_reader just_connected new_chain heights self).2 := by
  induction heights with
  | nil => exact fun self => .nil fun _ => id
  | cons h rest ih =>
    intro self
    unfold connect_loop_calls connect_loop
    cases new_chain[h.toNat]? with
    | none => exact .nil fun _ => id
    | some idx =>
      dsimp only
      by_cases hjust : just_connected = some idx
      · rw [if_pos hjust, if_pos hjust]
        exact ih self
      · rw [if_neg hjust, if_neg hjust]
        have hstep := self.connect_at_updates env block_reader h idx
        have hkeeps : ∀ i, idx ≠ i → (self.connect_at env block_reader h idx).2.valid_at i = true →
            self.valid_at i = true := by
          intro i hne hi
          rwa [valid_at_of_getElem? (self.connect_at_keeps env block_reader h hne)] at hi
        cases hconnect : self.connect_at env block_reader h idx with
        | mk result mid =>
          rw [hconnect] at hstep hkeeps
          cases result with
          | error e => exact .cons hstep hkeeps (.nil fun _ => id) (.refl mid)
          | ok _ =>
            exact .cons hstep hkeeps (ih mid) (connect_loop_updates env block_reader just_connected new_chain rest mid)

theorem activate_connects (block_reader : BlockReader) (just_connected : Option Nat) :
    Connects self (self.activate_calls env block_reader just_connected)
      (self.activate_best_chain env block_reader just_connected).2 := by
  unfold activate_calls activate_best_chain
  cases self.best_valid_tip with
  | none => exact .nil fun _ => id
  | some best =>
    dsimp only
    split
    · exact .nil fun _ => id
    · unfold reorganize_calls reorganize
      dsimp only
      cases self.disconnect_loop block_reader (heights_down
          (self.find_fork_height (self.build_chain_path best.1) self.chain.height) self.chain.height)
          self.coins_tip with
      | error why => exact .nil fun _ => id
      | ok coins_tip =>
        dsimp only
        have hloop := connect_loop_connects env block_reader just_connected (self.build_chain_path best.1)
          (heights_up (self.find_fork_height (self.build_chain_path best.1) self.chain.height)
            (self.entry best.1).height) { self with coins_tip }
        have hcoins : Updates self { self with coins_tip } := .of_index_eq rfl rfl rfl rfl
        split
        · next e after heq =>
          rw [heq] at hloop
          exact hloop.within hcoins (.refl after) (fun _ => id) fun _ => id
        · next after heq =>
          rw [heq] at hloop
          exact hloop.within hcoins (.of_index_eq rfl rfl rfl rfl) (fun _ => id) fun _ => id

theorem valid_at_update_entry {idx : Nat} {update : BlockIndex → BlockIndex}
    (hstatus : ∀ index, (update index).status = index.status) (i : Nat) :
    (self.update_entry idx update).valid_at i = self.valid_at i := by
  unfold valid_at BlockIndex.is_valid
  rw [entry_update_entry]
  split
  · rw [hstatus]
  · rfl

theorem valid_at_connected_of_ne {idx i : Nat} (hne : idx ≠ i) (coins_tip : CoinsViewCache) :
    (self.connected idx coins_tip).valid_at i = self.valid_at i :=
  valid_at_of_getElem? (mark_connected_keeps { self with coins_tip } hne)

theorem process_new_block_connects (hindexed : self.Indexed) (block : Block) (now : Int) (block_reader : BlockReader) :
    (∀ call ∈ self.new_block_calls env block now block_reader,
        Updates (self.accept_block_header env block.header now).2 call.1 ∧
          Updates call.1 (self.process_new_block env block now block_reader).2) ∧
      ∀ idx, (self.process_new_block env block now block_reader).2.valid_at idx = true →
        self.valid_at idx = true ∨ ∃ mid, (mid, idx) ∈ self.new_block_calls env block now block_reader := by
  have hstart : ∀ {idx i mid}, self.accept_block_header env block.header now = (.ok idx, mid) →
      mid.valid_at i = true → self.valid_at i = true := by
    intro idx i mid hheader hvalid
    have hkept := @Indexed.valid_at_accept_block_header self env hindexed block.header now i
    rw [hheader] at hkept
    exact hkept hvalid
  have hprocessed := self.process_new_block_processed env block now block_reader
  unfold new_block_calls
  generalize (self.process_new_block env block now block_reader).1 = result at hprocessed
  generalize (self.process_new_block env block now block_reader).2 = after at hprocessed ⊢
  cases hprocessed with
  | header hheader =>
    have hnone : self.at_connect env block now = none := by
      unfold at_connect
      rw [hheader]
    rw [hnone]
    exact ⟨fun _ hmem => (List.not_mem_nil hmem).elim, fun _ hvalid => .inl hvalid⟩
  | known hheader hknown =>
    have hnone : self.at_connect env block now = none := by
      unfold at_connect
      rw [hheader]
      exact if_pos hknown
    rw [hnone]
    exact ⟨fun _ hmem => (List.not_mem_nil hmem).elim, fun _ hvalid => .inl (hstart hheader hvalid)⟩
  | @body idx mid e hheader hknown hbody =>
    have hnone : self.at_connect env block now = none := by
      unfold at_connect
      simp only [hheader, hknown, hbody, Bool.false_eq_true, if_false]
    rw [hnone]
    refine ⟨fun _ hmem => (List.not_mem_nil hmem).elim, fun i hvalid => .inl (hstart hheader ?_)⟩
    exact valid_at_mark_failed idx i e hvalid
  | @context idx mid e hheader hknown hbody hcontext =>
    have hnone : self.at_connect env block now = none := by
      unfold at_connect
      simp only [hheader, hknown, hbody, hcontext, Bool.false_eq_true, if_false]
    rw [hnone]
    refine ⟨fun _ hmem => (List.not_mem_nil hmem).elim, fun i hvalid => .inl (hstart hheader ?_)⟩
    rw [← valid_at_receive_data block idx i]
    exact valid_at_mark_failed idx i e hvalid
  | @connect idx mid e coins_tip hheader hknown hbody hcontext hconnect =>
    rw [(at_connect_eq_some env).mpr ⟨mid, hheader, hknown, hbody, hcontext, rfl⟩]
    dsimp only
    rw [hconnect, hheader]
    have hcoins : Updates (mid.receive_data block idx) { mid.receive_data block idx with coins_tip } :=
      .of_index_eq rfl rfl rfl rfl
    have hcalls : Connects (mid.receive_data block idx) [(mid.receive_data block idx, idx)]
        ({ mid.receive_data block idx with coins_tip }.mark_failed idx e) :=
      .cons (hcoins.trans (mark_failed_updates _ idx e)) (fun i _ => valid_at_mark_failed idx i e) (.nil fun _ => id)
        (.refl _)
    have hwhole := hcalls.within (mid.receive_data_updates block idx) (.refl _)
      (fun i hvalid => by rwa [valid_at_receive_data] at hvalid) fun _ => id
    exact ⟨hwhole.updates, fun i hvalid => (hwhole.valid i hvalid).imp_left (hstart hheader)⟩
  | @activate idx mid after undo coins_tip result hheader hknown hbody hcontext hconnect hactivate =>
    rw [(at_connect_eq_some env).mpr ⟨mid, hheader, hknown, hbody, hcontext, rfl⟩]
    dsimp only
    rw [hconnect, hheader]
    have hcoins : Updates (mid.receive_data block idx) { mid.receive_data block idx with coins_tip } :=
      .of_index_eq rfl rfl rfl rfl
    have hrest := @activate_connects ((mid.receive_data block idx).connected idx coins_tip) env block_reader (some idx)
    have hlast := activate_best_chain_updates env ((mid.receive_data block idx).connected idx coins_tip) block_reader
      (some idx)
    rw [hactivate] at hrest hlast
    have hcalls := Connects.cons (hcoins.trans (mark_connected_updates _ idx))
      (fun i hne hvalid => (valid_at_connected_of_ne hne coins_tip).symm.trans hvalid) hrest hlast
    have hwhole := hcalls.within (mid.receive_data_updates block idx) (.refl _)
      (fun i hvalid => by rwa [valid_at_receive_data] at hvalid) fun _ => id
    exact ⟨hwhole.updates, fun i hvalid => (hwhole.valid i hvalid).imp_left (hstart hheader)⟩

/-- Every call of an event has the index that the event leaves, and an entry becomes valid by a
    call only. -/
theorem connect_calls_spec (hindexed : self.Indexed) (event : Event) :
    (∀ call ∈ self.connect_calls env event, call.1.Indexed ∧ Updates call.1 (self.apply env event)) ∧
      ∀ idx, (self.apply env event).valid_at idx = true →
        self.valid_at idx = true ∨ ∃ mid, (mid, idx) ∈ self.connect_calls env event := by
  cases event with
  | block block now block_reader =>
    obtain ⟨hcalls, hvalid⟩ := process_new_block_connects env hindexed block now block_reader
    refine ⟨fun call hmem => ?_, hvalid⟩
    obtain ⟨hbefore, hafter⟩ := hcalls call hmem
    exact ⟨(hindexed.accept_block_header env block.header now).1.of_updates hbefore, hafter⟩
  | header header now =>
    exact ⟨fun _ hmem => (List.not_mem_nil hmem).elim, fun idx hvalid =>
      .inl (hindexed.valid_at_accept_block_header env header now hvalid)⟩
  | file_pos hash file data_pos =>
    refine ⟨fun _ hmem => (List.not_mem_nil hmem).elim, fun idx hvalid => .inl ?_⟩
    have hvalid : (self.set_file_pos hash file data_pos).valid_at idx = true := hvalid
    unfold set_file_pos at hvalid
    split at hvalid
    · refine (valid_at_update_entry ?_ idx).symm.trans hvalid
      exact fun _ => rfl
    · exact hvalid
  | undo_pos hash undo_pos =>
    refine ⟨fun _ hmem => (List.not_mem_nil hmem).elim, fun idx hvalid => .inl ?_⟩
    have hvalid : (self.set_undo_pos hash undo_pos).valid_at idx = true := hvalid
    unfold set_undo_pos at hvalid
    split at hvalid
    · refine (valid_at_update_entry ?_ idx).symm.trans hvalid
      exact fun _ => rfl
    · exact hvalid
  | assume_valid hash => exact ⟨fun _ hmem => (List.not_mem_nil hmem).elim, fun _ hvalid => .inl hvalid⟩

/-- A step of the manager with its database, or a new manager that loads the records. -/
inductive IndexEvent where
  | store (event : StoreEvent)
  | reload (fresh : CoinsViewDB) (records : List BlockIndexRecord)

/-- The records come in any order. The null hash stands for no block, and no record has it. -/
def IndexStep (state : ChainstateManager × BlockIndexDB) : IndexEvent → ChainstateManager × BlockIndexDB → Prop
  | .store event, next => StoreStep env state event next
  | .reload fresh records, next => records.Perm (load_all state.2) ∧ (∀ record ∈ records, record.block_hash ≠ 0) ∧
      next = ((ChainstateManager.new state.1.params fresh).load_block_index records, state.2)

/-- The database is empty or holds all of some index. -/
def Saved (db : BlockIndexDB) : Prop := db = ∅ ∨ ∃ flushed, Stored flushed db ∧ flushed.dirty_indices = ∅

/-- The manager that has loaded an empty database. -/
structure Blank (manager : ChainstateManager) (db : BlockIndexDB) : Prop where
  block_index : manager.block_index = .new
  dirty : manager.dirty_indices = ∅
  db : db = ∅

variable {env}

theorem Blank.accept_block_header {manager : ChainstateManager} {db : BlockIndexDB} (hblank : Blank manager db)
    (header : BlockHeader) (now : Int) : ∃ e, manager.accept_block_header env header now = (.error e, manager) := by
  have hfind : ∀ hash, manager.block_index.find_by_hash hash = none := by
    intro hash
    rw [hblank.block_index]
    rfl
  have hcheck : ∃ e, manager.check_new_header env header now = .error e := by
    unfold check_new_header find_parent
    rw [hfind]
    cases check_block_header env header manager.params.consensus with
    | error e => exact ⟨e, rfl⟩
    | ok _ => exact ⟨_, rfl⟩
  obtain ⟨e, hcheck⟩ := hcheck
  refine ⟨e, ?_⟩
  unfold ChainstateManager.accept_block_header
  rw [hfind, hcheck]

theorem Blank.apply {manager : ChainstateManager} {db : BlockIndexDB} (hblank : Blank manager db) (event : Event) :
    Blank (manager.apply env event) db ∧ manager.connect_calls env event = [] := by
  cases event with
  | block block now block_reader =>
    obtain ⟨e, hheader⟩ := @Blank.accept_block_header env manager db hblank block.header now
    have hafter : manager.apply env (.block block now block_reader) = manager := by
      change (manager.process_new_block env block now block_reader).2 = manager
      unfold process_new_block
      rw [hheader]
    have hcalls : manager.connect_calls env (.block block now block_reader) = [] := by
      change manager.new_block_calls env block now block_reader = []
      unfold new_block_calls at_connect
      rw [hheader]
    rw [hafter]
    exact ⟨hblank, hcalls⟩
  | header header now =>
    obtain ⟨e, hheader⟩ := @Blank.accept_block_header env manager db hblank header now
    have hafter : manager.apply env (.header header now) = manager := congrArg Prod.snd hheader
    rw [hafter]
    exact ⟨hblank, rfl⟩
  | file_pos hash file data_pos =>
    have hafter : manager.apply env (.file_pos hash file data_pos) = manager := by
      change manager.set_file_pos hash file data_pos = manager
      unfold set_file_pos lookup_block_index
      rw [hblank.block_index]
      rfl
    rw [hafter]
    exact ⟨hblank, rfl⟩
  | undo_pos hash undo_pos =>
    have hafter : manager.apply env (.undo_pos hash undo_pos) = manager := by
      change manager.set_undo_pos hash undo_pos = manager
      unfold set_undo_pos
      rw [hblank.block_index]
      rfl
    rw [hafter]
    exact ⟨hblank, rfl⟩
  | assume_valid hash => exact ⟨⟨hblank.block_index, hblank.dirty, hblank.db⟩, rfl⟩

/-- What holds of a manager and its database along a run. -/
def Kept (state : ChainstateManager × BlockIndexDB) : Prop :=
  Stored state.1 state.2 ∧ Saved state.2 ∨ Blank state.1 state.2

theorem Kept.store {state next : ChainstateManager × BlockIndexDB} {event : StoreEvent} (hkept : Kept state)
    (hstep : StoreStep env state event next) : Kept next := by
  obtain ⟨hstored, hsaved⟩ | hblank := hkept
  · have hnext := Stored.step env hstored hstep
    cases event with
    | event event =>
      obtain rfl := hstep
      exact .inl ⟨hnext, hsaved⟩
    | flush listed =>
      obtain ⟨_, rfl⟩ := hstep
      exact .inl ⟨hnext, .inr ⟨_, hnext, rfl⟩⟩
  · cases event with
    | event event =>
      obtain rfl := hstep
      exact .inr (hblank.apply event).1
    | flush listed =>
      obtain ⟨hlisted, rfl⟩ := hstep
      obtain rfl : listed = [] := List.toFinset_eq_empty_iff listed |>.mp (hlisted.trans hblank.dirty)
      exact .inr ⟨hblank.block_index, rfl, hblank.db⟩

theorem Kept.reload {state next : ChainstateManager × BlockIndexDB} {fresh : CoinsViewDB}
    {records : List BlockIndexRecord} (hkept : Kept state) (hstep : IndexStep env state (.reload fresh records) next) :
    Kept next := by
  obtain ⟨hrecords, hnull, rfl⟩ := hstep
  have hsaved : Saved state.2 := by
    obtain ⟨_, hsaved⟩ | hblank := hkept
    · exact hsaved
    · exact .inl hblank.db
  obtain hempty | ⟨flushed, hstored, hclean⟩ := hsaved
  · rw [hempty] at hrecords
    obtain rfl : records = [] := hrecords.eq_nil
    exact .inr ⟨rfl, rfl, hempty⟩
  · have hperm := hrecords.trans (hstored.persisted.load_all_perm hstored.toIndexed hclean)
    have hhashes : ∀ {idx : Nat} {index : BlockIndex}, flushed.arena[idx]? = some index → index.block_hash ≠ 0 := by
      intro idx index hat
      have hmem : to_record index ∈ records :=
        hperm.mem_iff.mpr (List.mem_map_of_mem (List.mem_of_getElem? hat))
      exact hnull _ hmem
    obtain ⟨hrebuilt, _⟩ := hstored.toSound.rebuilt hstored.work hhashes hperm state.1.params fresh
    exact .inl ⟨hrebuilt.stored hstored hclean, .inr ⟨flushed, hstored, hclean⟩⟩

variable (env)

/-- After every run from genesis with flushes and reloads, scripts are skipped for the
    assume-valid block and its ancestors only. So are they in every connection that a further
    event makes, and no entry becomes valid without such a connection. -/
theorem scripts_skipped_iff_assumed {params : ChainParams} {base : CoinsViewDB} {start after : ChainstateManager}
    {db : BlockIndexDB} {events : List IndexEvent} (hstart : FromGenesis env params base start)
    (hrun : Trace (IndexStep env) (start, ∅) events (after, db)) :
    (∀ idx < after.arena.length, after.should_skip_scripts idx = true ↔ after.Assumed idx) ∧
      ∀ event,
        (∀ call ∈ after.connect_calls env event,
          call.1.should_skip_scripts call.2 = true ↔ (after.apply env event).Assumed call.2) ∧
        ∀ idx, (after.apply env event).valid_at idx = true →
          after.valid_at idx = true ∨ ∃ mid, (mid, idx) ∈ after.connect_calls env event := by
  have hkept : Kept (after, db) := by
    refine hrun.invariant Kept (fun {state event next} hstate hstep => ?_)
      (.inl ⟨FromGenesis.stored env hstart, .inl rfl⟩)
    cases event with
    | store event => exact hstate.store hstep
    | reload fresh records => exact hstate.reload hstep
  obtain ⟨hstored, _⟩ | hblank := hkept
  · refine ⟨fun idx _ => hstored.should_skip_scripts_iff idx, fun event => ?_⟩
    obtain ⟨hcalls, hvalid⟩ := connect_calls_spec env hstored.toIndexed event
    refine ⟨fun call hmem => ?_, hvalid⟩
    obtain ⟨hindexed, hupdates⟩ := hcalls call hmem
    exact (hindexed.should_skip_scripts_iff call.2).trans (hupdates.assumed_iff call.2).symm
  · have harena : ∀ {manager : ChainstateManager}, Blank manager db → manager.arena = [] := fun h =>
      congrArg BlockMap.indices h.block_index
    refine ⟨fun idx hlt => ?_, fun event => ?_⟩
    · rw [harena hblank] at hlt
      exact absurd hlt (Nat.not_lt_zero idx)
    · obtain ⟨hafter, hcalls⟩ := @Blank.apply env after db hblank event
      rw [hcalls]
      refine ⟨fun _ hmem => (List.not_mem_nil hmem).elim, fun idx hvalid => ?_⟩
      have hnew : (after.apply env event).entry idx = .new := by
        change (after.apply env event).arena.getD idx .new = .new
        rw [harena hafter, List.getD_nil]
      rw [valid_at, hnew] at hvalid
      exact absurd hvalid (by decide)

/-- A block, a flush, a start from the records, and the block set as the assume-valid one. -/
def reloading_events : List IndexEvent :=
  [.store (.event (.block first_block regtest_now none)), .store (.flush [1, 0]),
    .reload ⟨∅, 0⟩ (load_all first_database).reverse, .store (.event (.assume_valid (first_block.block_hash crypto.sha256d)))]

def reloaded_manager : ChainstateManager :=
  { (ChainstateManager.new first_manager.clear_dirty.params ⟨∅, 0⟩).load_block_index (load_all first_database).reverse
      with assume_valid := some (first_block.block_hash crypto.sha256d) }

theorem IndexStep.of_reload {manager : ChainstateManager} {db : BlockIndexDB} (fresh : CoinsViewDB)
    {records : List BlockIndexRecord} (hrecords : records.Perm (load_all db))
    (hnull : ∀ record ∈ records, record.block_hash ≠ 0) : IndexStep env (manager, db) (.reload fresh records)
      ((ChainstateManager.new manager.params fresh).load_block_index records, db) := ⟨hrecords, hnull, rfl⟩

theorem scripts_skipped_iff_assumed_first_block :
    (∀ idx < reloaded_manager.arena.length,
        reloaded_manager.should_skip_scripts idx = true ↔ reloaded_manager.Assumed idx) ∧
      ∀ event,
        (∀ call ∈ reloaded_manager.connect_calls .op_true event,
          call.1.should_skip_scripts call.2 = true ↔ (reloaded_manager.apply .op_true event).Assumed call.2) ∧
        ∀ idx, (reloaded_manager.apply .op_true event).valid_at idx = true →
          reloaded_manager.valid_at idx = true ∨ ∃ mid, (mid, idx) ∈ reloaded_manager.connect_calls .op_true event := by
  obtain ⟨hlisted, _, hnull⟩ := first_manager_facts
  refine @scripts_skipped_iff_assumed .op_true .regtest ⟨∅, 0⟩ regtest_manager reloaded_manager first_database
    reloading_events regtest_manager_from_genesis ?_
  exact .cons (StoreStep.of_event .op_true regtest_manager ∅ (.block first_block regtest_now none))
    (.cons (StoreStep.of_flush .op_true ∅ hlisted)
      (.cons (IndexStep.of_reload .op_true ⟨∅, 0⟩ (List.reverse_perm _) hnull)
        (.cons (StoreStep.of_event .op_true _ first_database (.assume_valid (first_block.block_hash crypto.sha256d)))
          (.nil _))))

end ChainstateManager

end qubitcoin.chainstate
