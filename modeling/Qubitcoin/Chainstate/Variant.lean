import Qubitcoin.Chainstate.Sound

/-! Two managers that differ in the status and the counts of one entry process the
    block of that entry alike. -/

open qubitcoin primitives transaction block coins params check validation_state chain chainparams
  qubitcoin.validation parentTree

namespace qubitcoin.chain

section
variable {arena other : List BlockIndex} (hfixed : other.map BlockIndex.fixed = arena.map BlockIndex.fixed)
include hfixed

theorem getElem?_fixed_rel (idx : Nat) :
    Option.Rel (fun index twin => twin.fixed = index.fixed) arena[idx]? other[idx]? := by
  cases hat : other[idx]? with
  | none =>
    have hlength : other.length = arena.length := by simpa using congrArg List.length hfixed
    rw [List.getElem?_eq_none_iff, hlength] at hat
    rw [List.getElem?_eq_none_iff.mpr hat]
    exact .none
  | some twin =>
    obtain ⟨index, hindex, heq⟩ := getElem?_of_fixed hfixed hat
    rw [hindex]
    exact .some heq.symm

theorem get_ancestor_loop_fixed {target_height : Int} {fuel : Nat} : ∀ {idx : Nat} {height : Int},
    get_ancestor_loop other target_height fuel idx height = get_ancestor_loop arena target_height fuel idx height := by
  induction fuel with
  | zero => exact fun {_ _} => rfl
  | succ fuel ih =>
    intro idx height
    have hrel := getElem?_fixed_rel hfixed idx
    unfold get_ancestor_loop
    generalize arena[idx]? = left at hrel ⊢
    generalize other[idx]? = right at hrel ⊢
    cases hrel with
    | none => rfl
    | @some index twin heq =>
      obtain ⟨hprev, _, hskip⟩ := fixed_links heq
      dsimp only
      simp only [hprev, hskip, ih]

theorem get_ancestor_fixed (idx : Nat) (target_height : Int) :
    get_ancestor other idx target_height = get_ancestor arena idx target_height := by
  have hrel := getElem?_fixed_rel hfixed idx
  unfold get_ancestor
  generalize arena[idx]? = left at hrel ⊢
  generalize other[idx]? = right at hrel ⊢
  cases hrel with
  | none => rfl
  | @some index twin heq =>
    obtain ⟨_, hheight, _⟩ := fixed_links heq
    dsimp only
    rw [hheight, get_ancestor_loop_fixed hfixed]

theorem collect_ancestors_fixed {count : Nat} : ∀ {start : Option Nat},
    (collect_ancestors_from other count start).map BlockIndex.get_block_time =
      (collect_ancestors_from arena count start).map BlockIndex.get_block_time := by
  induction count with
  | zero => exact fun {_} => rfl
  | succ count ih =>
    intro start
    cases start with
    | none => rfl
    | some idx =>
      have hrel := getElem?_fixed_rel hfixed idx
      unfold collect_ancestors_from
      generalize arena[idx]? = left at hrel ⊢
      generalize other[idx]? = right at hrel ⊢
      cases hrel with
      | none => rfl
      | @some index twin heq =>
        have htime : twin.time = index.time := by
          have := congrArg BlockIndex.time heq
          exact this
        dsimp only
        rw [List.map_cons, List.map_cons, (fixed_links heq).1, ih, BlockIndex.get_block_time,
          BlockIndex.get_block_time, htime]

theorem get_median_time_past_fixed (count : Nat) (start : Option Nat) :
    BlockIndex.get_median_time_past (collect_ancestors_from other count start) =
      BlockIndex.get_median_time_past (collect_ancestors_from arena count start) := by
  unfold BlockIndex.get_median_time_past
  rw [List.map_take, List.map_take, collect_ancestors_fixed hfixed]

end

end qubitcoin.chain

namespace qubitcoin.validation

theorem last_non_special_bits_loop_fixed {arena other : List BlockIndex}
    (hfixed : other.map BlockIndex.fixed = arena.map BlockIndex.fixed) {interval : Int} {limit : UInt32} {fuel : Nat} :
    ∀ {index twin : BlockIndex}, twin.fixed = index.fixed →
      last_non_special_bits_loop other interval limit fuel twin =
        last_non_special_bits_loop arena interval limit fuel index := by
  induction fuel with
  | zero =>
    intro index twin heq
    have hbits := congrArg BlockIndex.bits heq
    exact hbits
  | succ fuel ih =>
    intro index twin heq
    have hbits : twin.bits = index.bits := by
      have := congrArg BlockIndex.bits heq
      exact this
    obtain ⟨hprev, hheight, _⟩ := fixed_links heq
    unfold last_non_special_bits_loop
    rw [hbits, hheight, hprev]
    split
    · rfl
    · cases index.prev with
      | none => rfl
      | some prev_idx =>
        have hrel := getElem?_fixed_rel hfixed prev_idx
        dsimp only [Option.bind]
        generalize arena[prev_idx]? = left at hrel ⊢
        generalize other[prev_idx]? = right at hrel ⊢
        cases hrel with
        | none => rfl
        | some heq => exact ih heq

theorem expected_bits_fixed {arena other : List BlockIndex}
    (hfixed : other.map BlockIndex.fixed = arena.map BlockIndex.fixed) (header : BlockHeader)
    (params : ConsensusParams) (idx : Nat) :
    expected_bits header (other.getD idx .new) params other idx =
      expected_bits header (arena.getD idx .new) params arena idx := by
  have heq := getD_fixed hfixed idx
  have hlength : other.length = arena.length := by simpa using congrArg List.length hfixed
  generalize other.getD idx .new = twin at heq ⊢
  generalize arena.getD idx .new = index at heq ⊢
  have htime : twin.time = index.time := by
    have := congrArg BlockIndex.time heq
    exact this
  have hbits : twin.bits = index.bits := by
    have := congrArg BlockIndex.bits heq
    exact this
  obtain ⟨_, hheight, _⟩ := fixed_links heq
  have hfirst : first_of_period other twin idx params.difficulty_adjustment_interval =
      first_of_period arena index idx params.difficulty_adjustment_interval := by
    unfold first_of_period
    rw [hheight, htime, hbits, get_ancestor_fixed hfixed]
    split
    · cases get_ancestor arena idx (index.height - (params.difficulty_adjustment_interval - 1)) with
      | none => rfl
      | some first_idx =>
        have hrel := getElem?_fixed_rel hfixed first_idx
        dsimp only [Option.bind]
        generalize arena[first_idx]? = left at hrel ⊢
        generalize other[first_idx]? = right at hrel ⊢
        cases hrel with
        | none => rfl
        | @some first first_twin heq =>
          have htime := congrArg BlockIndex.time heq
          have hbits := congrArg BlockIndex.bits heq
          exact Prod.ext htime hbits
    · rfl
  unfold expected_bits
  dsimp only
  rw [hfirst, hlength, hheight, hbits, htime, last_non_special_bits_loop_fixed hfixed heq]

theorem contextual_check_block_header_fixed {arena other : List BlockIndex}
    (hfixed : other.map BlockIndex.fixed = arena.map BlockIndex.fixed) (header : BlockHeader)
    (params : ConsensusParams) (idx : Nat) (now : Int) :
    contextual_check_block_header_with_arena header (other.getD idx .new) params other idx now =
      contextual_check_block_header_with_arena header (arena.getD idx .new) params arena idx now := by
  have heq := getD_fixed hfixed idx
  have hexpected := expected_bits_fixed hfixed header params idx
  have hmtp : compute_mtp other idx = compute_mtp arena idx := get_median_time_past_fixed hfixed _ _
  have htime : (other.getD idx .new).time = (arena.getD idx .new).time := by
    have := congrArg BlockIndex.time heq
    exact this
  obtain ⟨_, hheight, _⟩ := fixed_links heq
  unfold contextual_check_block_header_with_arena BlockIndex.get_block_time
  rw [hheight, hmtp, hexpected, htime]

end qubitcoin.validation

namespace qubitcoin.chainstate

namespace ChainstateManager

/-- The same tree of blocks, under the same rules. Statuses, counts and positions may differ. -/
structure Parallel (left right : ChainstateManager) : Prop where
  params : right.params = left.params
  assume_valid : right.assume_valid = left.assume_valid
  by_hash : right.block_index.by_hash = left.block_index.by_hash
  fixed : right.arena.map BlockIndex.fixed = left.arena.map BlockIndex.fixed

namespace Parallel

variable {left right : ChainstateManager}

theorem symm (hparallel : Parallel left right) : Parallel right left :=
  ⟨hparallel.params.symm, hparallel.assume_valid.symm, hparallel.by_hash.symm, hparallel.fixed.symm⟩

theorem trans {third : ChainstateManager} (hleft : Parallel left right) (hright : Parallel right third) :
    Parallel left third :=
  ⟨hright.params.trans hleft.params, hright.assume_valid.trans hleft.assume_valid,
    hright.by_hash.trans hleft.by_hash, hright.fixed.trans hleft.fixed⟩

theorem entry_fixed (hparallel : Parallel left right) (i : Nat) : (right.entry i).fixed = (left.entry i).fixed :=
  getD_fixed hparallel.fixed i

theorem height (hparallel : Parallel left right) (i : Nat) : (right.entry i).height = (left.entry i).height :=
  (fixed_links (hparallel.entry_fixed i)).2.1

theorem block_hash (hparallel : Parallel left right) (i : Nat) :
    (right.entry i).block_hash = (left.entry i).block_hash := by
  have hhash := congrArg BlockIndex.block_hash (hparallel.entry_fixed i)
  exact hhash

theorem chain_work (hparallel : Parallel left right) (i : Nat) :
    (right.entry i).chain_work = (left.entry i).chain_work := by
  have hwork := congrArg BlockIndex.chain_work (hparallel.entry_fixed i)
  exact hwork

theorem get_prev (hparallel : Parallel left right) : right.get_prev = left.get_prev :=
  parent_of_fixed hparallel.fixed

theorem length (hparallel : Parallel left right) : right.arena.length = left.arena.length := by
  simpa using congrArg List.length hparallel.fixed

theorem find_by_hash (hparallel : Parallel left right) (hash : BlockHash) :
    right.block_index.find_by_hash hash = left.block_index.find_by_hash hash := by
  unfold BlockMap.find_by_hash
  rw [hparallel.by_hash]

theorem median_time_past (hparallel : Parallel left right) (count : Nat) (start : Option Nat) :
    BlockIndex.get_median_time_past (collect_ancestors_from right.block_index.indices count start) =
      BlockIndex.get_median_time_past (collect_ancestors_from left.block_index.indices count start) :=
  get_median_time_past_fixed hparallel.fixed count start

theorem mtp_lookup (hparallel : Parallel left right) (hchain : right.chain = left.chain) (default : Int) :
    right.mtp_lookup default = left.mtp_lookup default := by
  funext height
  have hmtp : ∀ i, compute_mtp right.block_index.indices i = compute_mtp left.block_index.indices i :=
    fun i => hparallel.median_time_past _ _
  unfold ChainstateManager.mtp_lookup
  simp only [hchain, hmtp]

theorem should_skip_scripts (hparallel : Parallel left right) (i : Nat) :
    right.should_skip_scripts i = left.should_skip_scripts i := by
  have hancestor : ∀ j height, get_ancestor right.block_index.indices j height =
      get_ancestor left.block_index.indices j height := fun j height => get_ancestor_fixed hparallel.fixed j height
  unfold ChainstateManager.should_skip_scripts
  simp only [hparallel.assume_valid, hparallel.block_hash, hparallel.find_by_hash, hparallel.height, hancestor]

end Parallel

/-- The same manager but for the status and the counts of an entry, and for what is
    dirty. -/
structure Variant (idx : Nat) (left right : ChainstateManager) : Prop where
  params : right.params = left.params
  assume_valid : right.assume_valid = left.assume_valid
  by_hash : right.block_index.by_hash = left.block_index.by_hash
  chain : right.chain = left.chain
  coins_tip : right.coins_tip = left.coins_tip
  best_valid_tip : right.best_valid_tip = left.best_valid_tip
  fixed : right.arena.map BlockIndex.fixed = left.arena.map BlockIndex.fixed
  others : ∀ i, i ≠ idx → right.entry i = left.entry i
  positions : (right.entry idx).file = (left.entry idx).file ∧
    (right.entry idx).data_pos = (left.entry idx).data_pos ∧
    (right.entry idx).undo_pos = (left.entry idx).undo_pos

/-- Calls with the same result that leave variants of one manager. -/
def Alike {A : Type} (idx : Nat) (left right : A × ChainstateManager) : Prop :=
  right.1 = left.1 ∧ Variant idx left.2 right.2

theorem Alike.exists_eq {A : Type} {idx : Nat} {left right : A × ChainstateManager} (halike : Alike idx left right) :
    ∃ result left_after right_after, left = (result, left_after) ∧ right = (result, right_after) ∧
      Variant idx left_after right_after :=
  ⟨left.1, left.2, right.2, rfl, Prod.ext halike.1 rfl, halike.2⟩

namespace Variant

variable {idx : Nat} {left right : ChainstateManager}

theorem parallel (hvariant : Variant idx left right) : Parallel left right :=
  ⟨hvariant.params, hvariant.assume_valid, hvariant.by_hash, hvariant.fixed⟩

theorem height (hvariant : Variant idx left right) (i : Nat) : (right.entry i).height = (left.entry i).height :=
  hvariant.parallel.height i

theorem get_prev (hvariant : Variant idx left right) : right.get_prev = left.get_prev :=
  hvariant.parallel.get_prev

theorem length (hvariant : Variant idx left right) : right.arena.length = left.arena.length :=
  hvariant.parallel.length

theorem read_block (hvariant : Variant idx left right) (block_reader : BlockReader) (i : Nat) :
    right.read_block block_reader i = left.read_block block_reader i := by
  unfold ChainstateManager.read_block
  by_cases hi : i = idx
  · obtain ⟨hfile, hdata, hundo⟩ := hvariant.positions
    rw [hi, hfile, hdata, hundo]
  · rw [hvariant.others i hi]

theorem mtp_lookup (hvariant : Variant idx left right) (default : Int) :
    right.mtp_lookup default = left.mtp_lookup default := hvariant.parallel.mtp_lookup hvariant.chain default

theorem should_skip_scripts (hvariant : Variant idx left right) (i : Nat) :
    right.should_skip_scripts i = left.should_skip_scripts i := hvariant.parallel.should_skip_scripts i

theorem with_coins (hvariant : Variant idx left right) (coins_tip : CoinsViewCache) :
    Variant idx { left with coins_tip } { right with coins_tip } :=
  ⟨hvariant.params, hvariant.assume_valid, hvariant.by_hash, hvariant.chain, rfl, hvariant.best_valid_tip,
    hvariant.fixed, hvariant.others, hvariant.positions⟩

/-- The same change on both sides. At the entry itself it does not carry the status
    or the counts over to the other fields. -/
theorem update_entry (hvariant : Variant idx left right) (i : Nat) {update twin : BlockIndex → BlockIndex}
    (hfixed : ∀ index, (update index).fixed = index.fixed) (htwin : ∀ index, (twin index).fixed = index.fixed)
    (hother : i ≠ idx → ∀ index, twin index = update index)
    (hpositions : ∀ index other : BlockIndex, other.file = index.file → other.data_pos = index.data_pos →
      other.undo_pos = index.undo_pos → (twin other).file = (update index).file ∧
        (twin other).data_pos = (update index).data_pos ∧ (twin other).undo_pos = (update index).undo_pos) :
    Variant idx (left.update_entry i update) (right.update_entry i twin) := by
  have hleft : Updates left (left.update_entry i update) := .update_entry left i hfixed
  have hright : Updates right (right.update_entry i twin) := .update_entry right i htwin
  refine ⟨hvariant.params, hvariant.assume_valid, hvariant.by_hash, hvariant.chain, hvariant.coins_tip,
    hvariant.best_valid_tip, ?_, ?_, ?_⟩
  · rw [hright.fixed, hleft.fixed]
    exact hvariant.fixed
  · intro j hj
    rw [entry_update_entry, entry_update_entry, hvariant.length, hvariant.others j hj]
    split
    · next heq =>
      obtain ⟨rfl, _⟩ := heq
      exact hother hj _
    · rfl
  · obtain ⟨hfile, hdata, hundo⟩ := hvariant.positions
    rw [entry_update_entry, entry_update_entry, hvariant.length]
    split
    · exact hpositions _ _ hfile hdata hundo
    · exact ⟨hfile, hdata, hundo⟩

theorem mark_failed (hvariant : Variant idx left right) (i : Nat) (e : Failure BlockValidationState) :
    Variant idx (left.mark_failed i e) (right.mark_failed i e) := by
  cases e with
  | panic why => exact hvariant
  | invalid state =>
    exact hvariant.update_entry i (fun _ => rfl) (fun _ => rfl) (fun _ _ => rfl)
      fun _ _ hfile hdata hundo => ⟨hfile, hdata, hundo⟩

theorem mark_connected (hvariant : Variant idx left right) (i : Nat) :
    Variant idx (left.mark_connected i) (right.mark_connected i) := by
  have hupdate : Variant idx
      (left.update_entry i fun index => { index with status := index.status.raise_validity BlockStatus.VALID_SCRIPTS })
      (right.update_entry i fun index => { index with status := index.status.raise_validity BlockStatus.VALID_SCRIPTS }) :=
    hvariant.update_entry i (fun _ => rfl) (fun _ => rfl) (fun _ _ => rfl)
      fun _ _ hfile hdata hundo => ⟨hfile, hdata, hundo⟩
  have hwork := hupdate.parallel.chain_work i
  unfold ChainstateManager.mark_connected
  dsimp only
  rw [hwork, hupdate.best_valid_tip]
  split
  · exact ⟨hupdate.params, hupdate.assume_valid, hupdate.by_hash, hupdate.chain, hupdate.coins_tip, rfl,
      hupdate.fixed, hupdate.others, hupdate.positions⟩
  · exact hupdate

theorem receive_data (hvariant : Variant idx left right) (block : Block) :
    Variant idx (left.receive_data block idx) (right.receive_data block idx) :=
  hvariant.update_entry idx (fun _ => rfl) (fun _ => rfl) (fun hne => absurd rfl hne)
    fun _ _ hfile hdata hundo => ⟨hfile, hdata, hundo⟩

theorem disconnect_loop (hvariant : Variant idx left right) (block_reader : BlockReader) (heights : List Int) :
    ∀ view, right.disconnect_loop block_reader heights view = left.disconnect_loop block_reader heights view := by
  have hread : right.read_block block_reader = left.read_block block_reader :=
    funext fun i => hvariant.read_block block_reader i
  induction heights with
  | nil => exact fun _ => rfl
  | cons h rest ih =>
    intro view
    unfold ChainstateManager.disconnect_loop
    rw [hvariant.chain, hread]
    split
    · exact ih view
    · cases disconnect_block _ h view _ with
      | error why => rfl
      | ok result => exact ih result.2

variable (env : Env)

theorem connect_at (hvariant : Variant idx left right) (block_reader : BlockReader) (h : Int) {i : Nat}
    (hne : i ≠ idx) : Alike idx (left.connect_at env block_reader h i) (right.connect_at env block_reader h i) := by
  unfold ChainstateManager.connect_at
  rw [hvariant.read_block]
  split
  · exact ⟨rfl, hvariant⟩
  · next block _ _ =>
    have hconnect : connect_block env block h right.coins_tip right.params.consensus (some (right.mtp_lookup 0))
        (right.should_skip_scripts i) = connect_block env block h left.coins_tip left.params.consensus
          (some (left.mtp_lookup 0)) (left.should_skip_scripts i) := by
      rw [hvariant.coins_tip, hvariant.params, hvariant.mtp_lookup, hvariant.should_skip_scripts]
    rw [hconnect, hvariant.others i hne]
    split
    · next e coins_tip _ => exact ⟨rfl, (hvariant.with_coins coins_tip).mark_failed i e⟩
    · next coins_tip _ =>
      split
      · exact ⟨rfl, hvariant.with_coins coins_tip⟩
      · exact ⟨rfl, (hvariant.with_coins coins_tip).mark_connected i⟩

theorem connect_loop (block_reader : BlockReader) (new_chain : List Nat) (heights : List Int) :
    ∀ {left right : ChainstateManager}, Variant idx left right →
      Alike idx (ChainstateManager.connect_loop env block_reader (some idx) new_chain heights left)
        (ChainstateManager.connect_loop env block_reader (some idx) new_chain heights right) := by
  induction heights with
  | nil => exact fun hvariant => ⟨rfl, hvariant⟩
  | cons h rest ih =>
    intro left right hvariant
    unfold ChainstateManager.connect_loop
    cases new_chain[h.toNat]? with
    | none => exact ⟨rfl, hvariant⟩
    | some i =>
      dsimp only
      split
      · exact ih hvariant
      · next hjust =>
        have hne : i ≠ idx := fun heq => hjust (congrArg some heq.symm)
        obtain ⟨result, left_after, right_after, hleft, hright, hafter⟩ :=
          (hvariant.connect_at env block_reader h hne).exists_eq
        rw [hleft, hright]
        cases result with
        | error e => exact ⟨rfl, hafter⟩
        | ok _ => exact ih hafter

theorem reorganize (hvariant : Variant idx left right) (block_reader : BlockReader) (best_idx : Nat) :
    Alike idx (left.reorganize env block_reader (some idx) best_idx)
      (right.reorganize env block_reader (some idx) best_idx) := by
  have hpath : right.build_chain_path best_idx = left.build_chain_path best_idx := by
    unfold build_chain_path
    rw [hvariant.height, hvariant.get_prev]
  have hsame : ∀ path, right.same_block_at path = left.same_block_at path := fun path => by
    funext h
    unfold same_block_at
    rw [hvariant.chain]
  have hfork : right.find_fork_height (right.build_chain_path best_idx) right.chain.height =
      left.find_fork_height (left.build_chain_path best_idx) left.chain.height := by
    unfold find_fork_height
    rw [hpath, hvariant.chain, hsame]
  have hdisconnect : ∀ low, right.disconnect_loop block_reader (heights_down low right.chain.height) right.coins_tip =
      left.disconnect_loop block_reader (heights_down low left.chain.height) left.coins_tip := fun low => by
    rw [hvariant.disconnect_loop, hvariant.chain, hvariant.coins_tip]
  unfold ChainstateManager.reorganize
  dsimp only
  rw [hfork, hdisconnect, hpath, hvariant.height]
  split
  · exact ⟨rfl, hvariant⟩
  · next coins_tip _ =>
    obtain ⟨result, left_after, right_after, hleft, hright, hafter⟩ :=
      (connect_loop env block_reader (left.build_chain_path best_idx)
        (heights_up (left.find_fork_height (left.build_chain_path best_idx) left.chain.height)
          (left.entry best_idx).height) (hvariant.with_coins coins_tip)).exists_eq
    rw [hleft, hright]
    cases result with
    | error e => exact ⟨rfl, hafter⟩
    | ok _ =>
      refine ⟨rfl, hafter.params, hafter.assume_valid, hafter.by_hash, ?_, ?_, hafter.best_valid_tip, hafter.fixed,
        hafter.others, hafter.positions⟩
      · dsimp only
        rw [hafter.chain, hafter.get_prev]
      · dsimp only
        rw [hafter.coins_tip, hafter.parallel.block_hash]

theorem activate_best_chain (hvariant : Variant idx left right) (block_reader : BlockReader) :
    Alike idx (left.activate_best_chain env block_reader (some idx))
      (right.activate_best_chain env block_reader (some idx)) := by
  unfold ChainstateManager.activate_best_chain
  rw [hvariant.best_valid_tip]
  split
  · exact ⟨rfl, hvariant⟩
  · rw [hvariant.chain]
    split
    · exact ⟨rfl, hvariant⟩
    · exact hvariant.reorganize env block_reader _

theorem process_body (hvariant : Variant idx left right) (block : Block) (block_reader : BlockReader) :
    Alike idx (left.process_body env block idx block_reader) (right.process_body env block idx block_reader) := by
  have hdata := hvariant.receive_data block
  have hcontext : (right.receive_data block idx).check_body_context env block idx =
      (left.receive_data block idx).check_body_context env block idx := by
    unfold check_body_context
    rw [(fixed_links (hdata.parallel.entry_fixed idx)).1, hdata.params]
    split
    · rfl
    · next prev_idx _ =>
      have hmtp := get_median_time_past_fixed hdata.fixed 11 (some prev_idx)
      unfold arena at hmtp
      dsimp only
      rw [hmtp, hdata.height]
  have hconnect : (right.receive_data block idx).connect_new_block env block idx =
      (left.receive_data block idx).connect_new_block env block idx := by
    unfold connect_new_block
    rw [hdata.height, hdata.coins_tip, hdata.params, hdata.mtp_lookup, hdata.should_skip_scripts]
  unfold ChainstateManager.process_body
  rw [hvariant.params]
  split
  · next e _ => exact ⟨rfl, hvariant.mark_failed idx e⟩
  · dsimp only
    rw [hcontext]
    split
    · next e _ => exact ⟨rfl, hdata.mark_failed idx e⟩
    · rw [hconnect]
      split
      · next e coins_tip _ => exact ⟨rfl, (hdata.with_coins coins_tip).mark_failed idx e⟩
      · next undo coins_tip _ =>
        obtain ⟨result, left_after, right_after, hleft, hright, hafter⟩ :=
          (((hdata.with_coins coins_tip).mark_connected idx).activate_best_chain env block_reader).exists_eq
        rw [hleft, hright]
        cases result with
        | error e => exact ⟨rfl, hafter⟩
        | ok _ =>
          dsimp only
          rw [hafter.chain]
          exact ⟨rfl, hafter⟩

end Variant

end ChainstateManager

end qubitcoin.chainstate
