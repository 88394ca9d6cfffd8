import Qubitcoin.Chainstate.Headed

/-! Where the index says that a block is on disk: only the calls that set a position change
    it. -/

open qubitcoin primitives transaction block coins params check validation_state chain chainparams
  qubitcoin.validation parentTree transition

namespace qubitcoin.chainstate

/-- The position fields of an entry: the file, the block and the undo data in it. -/
structure Place where
  file : Int32
  data_pos : UInt32
  undo_pos : UInt32
  deriving DecidableEq, Repr

namespace ChainstateManager

variable {self after : ChainstateManager}

/-- The position fields of the entry with a hash. -/
def place (self : ChainstateManager) (hash : BlockHash) : Option Place :=
  (self.block_index.find_by_hash hash).map fun idx =>
    ⟨(self.entry idx).file, (self.entry idx).data_pos, (self.entry idx).undo_pos⟩

theorem place_isSome (self : ChainstateManager) (hash : BlockHash) :
    (self.place hash).isSome = (self.block_index.find_by_hash hash).isSome := Option.isSome_map

theorem place_congr (hindex : after.block_index = self.block_index) : after.place = self.place := by
  funext hash
  unfold place entry
  rw [hindex]

theorem place_update_entry (self : ChainstateManager) (idx : Nat) {update : BlockIndex → BlockIndex}
    (hpositions : ∀ index, (update index).file = index.file ∧ (update index).data_pos = index.data_pos ∧
      (update index).undo_pos = index.undo_pos) : (self.update_entry idx update).place = self.place := by
  funext hash
  have hfind : (self.update_entry idx update).block_index.find_by_hash hash = self.block_index.find_by_hash hash := rfl
  unfold place
  rw [hfind]
  congr 1
  funext i
  rw [entry_update_entry]
  split
  · obtain ⟨hfile, hdata, hundo⟩ := hpositions (self.entry i)
    rw [hfile, hdata, hundo]
  · rfl

theorem place_mark_failed (self : ChainstateManager) (idx : Nat) (e : Failure BlockValidationState) :
    (self.mark_failed idx e).place = self.place := by
  cases e with
  | invalid state => exact self.place_update_entry idx fun _ => ⟨rfl, rfl, rfl⟩
  | panic why => rfl

theorem place_receive_data (self : ChainstateManager) (block : Block) (idx : Nat) :
    (self.receive_data block idx).place = self.place := self.place_update_entry idx fun _ => ⟨rfl, rfl, rfl⟩

theorem place_connected (self : ChainstateManager) (idx : Nat) (coins_tip : CoinsViewCache) :
    (self.connected idx coins_tip).place = self.place := by
  have hentry : ({ self with coins_tip }.update_entry idx fun index =>
      { index with status := index.status.raise_validity BlockStatus.VALID_SCRIPTS }).place = self.place :=
    { self with coins_tip }.place_update_entry idx fun _ => ⟨rfl, rfl, rfl⟩
  unfold connected mark_connected
  dsimp only
  split
  · exact hentry
  · exact hentry

theorem Indexed.place_set (hindexed : self.Indexed) {hash : BlockHash} {idx : Nat} {update : BlockIndex → BlockIndex}
    (hfound : self.block_index.find_by_hash hash = some idx) (query : BlockHash) :
    (self.update_entry idx update).place query =
      if query = hash then some ⟨(update (self.entry idx)).file, (update (self.entry idx)).data_pos,
        (update (self.entry idx)).undo_pos⟩
      else self.place query := by
  have hfind : (self.update_entry idx update).block_index.find_by_hash query = self.block_index.find_by_hash query := rfl
  unfold place
  rw [hfind]
  split
  · next heq =>
    subst heq
    rw [hfound, Option.map_some, entry_update_entry, if_pos ⟨rfl, hindexed.find_lt hfound⟩]
  · next hne =>
    cases hquery : self.block_index.find_by_hash query with
    | none => rfl
    | some other =>
      have hother : idx ≠ other := by
        rintro rfl
        obtain ⟨index, hat, hhash⟩ := hindexed.by_hash.mp hfound
        obtain ⟨same, hsame, hquery_hash⟩ := hindexed.by_hash.mp hquery
        rw [hat] at hsame
        cases hsame
        exact hne (hquery_hash.symm.trans hhash)
      rw [Option.map_some, Option.map_some, entry_update_entry, if_neg fun h => hother h.1]

theorem Indexed.place_set_file_pos (hindexed : self.Indexed) (hash : BlockHash) (file : Int32) (data_pos : UInt32)
    (query : BlockHash) :
    (self.set_file_pos hash file data_pos).place query =
      if query = hash then (self.place hash).map fun place => { place with file, data_pos } else self.place query := by
  unfold ChainstateManager.set_file_pos lookup_block_index
  split
  · next idx hfound =>
    rw [hindexed.place_set hfound]
    split
    · rw [place, hfound]
      rfl
    · rfl
  · next hnone =>
    split
    · next heq => rw [heq, place, hnone]; rfl
    · rfl

theorem Indexed.place_set_undo_pos (hindexed : self.Indexed) (hash : BlockHash) (undo_pos : UInt32) (query : BlockHash) :
    (self.set_undo_pos hash undo_pos).place query =
      if query = hash then (self.place hash).map fun place => { place with undo_pos } else self.place query := by
  unfold ChainstateManager.set_undo_pos
  split
  · next idx hfound =>
    rw [hindexed.place_set hfound]
    split
    · rw [place, hfound]
      rfl
    · rfl
  · next hnone =>
    split
    · next heq => rw [heq, place, hnone]; rfl
    · rfl

variable (env : Env)

theorem Indexed.place_accept_block_header (hindexed : self.Indexed) (header : BlockHeader) (now : Int)
    {query : BlockHash} {place : Place} (hplace : self.place query = some place) :
    (self.accept_block_header env header now).2.place query = some place := by
  cases haccept : self.accept_block_header env header now with
  | mk result after =>
    cases result with
    | error e =>
      obtain rfl := accept_block_header_error env haccept
      exact hplace
    | ok idx =>
      obtain ⟨_, rfl⟩ | ⟨prev_idx, hnew, hcheck, rfl, rfl⟩ := accept_block_header_ok env haccept
      · exact hplace
      · obtain ⟨hprev, _⟩ := check_new_header_ok env hcheck
        have hadded := hindexed.add_header env hnew hcheck
        obtain ⟨i, hfound, heq⟩ := Option.map_eq_some_iff.mp hplace
        have hlt := hindexed.find_lt hfound
        have hentry := hindexed.entry_add_header env header (hindexed.find_lt hprev) hlt
        obtain ⟨index, hat, hhash⟩ := hindexed.by_hash.mp hfound
        have hlater : i < (self.add_header env header prev_idx).arena.length := by
          obtain ⟨skip, harena, _⟩ := hindexed.add_header_arena env header (hindexed.find_lt hprev)
          rw [harena, List.length_append]
          omega
        have hstill : (self.add_header env header prev_idx).block_index.find_by_hash query = some i := by
          refine hadded.by_hash.mpr ⟨_, getElem?_entry hlater, ?_⟩
          rw [hentry, entry_eq hat, hhash]
        unfold ChainstateManager.place
        rw [hstill, Option.map_some, hentry, heq]

theorem Headed.place_process_new_block (hheaded : self.Headed) {block : Block} {now : Int} (block_reader : BlockReader)
    (hclimbs : self.Climbs env block now) {query : BlockHash} {place : Place} (hplace : self.place query = some place) :
    (self.process_new_block env block now block_reader).2.place query = some place := by
  obtain ⟨hstart, _⟩ := hheaded.accept_block_header env block.header now
  have hkept := hheaded.toIndexed.place_accept_block_header env block.header now hplace
  have hlater := (hheaded.toIndexed.accept_block_header env block.header now).2
  have hprocessed := self.process_new_block_processed env block now block_reader
  generalize (self.process_new_block env block now block_reader).1 = result at hprocessed
  generalize (self.process_new_block env block now block_reader).2 = after at hprocessed ⊢
  cases hprocessed with
  | header _ => exact hplace
  | known hheader _ =>
    rw [hheader] at hkept
    exact hkept
  | @body idx mid e hheader _ _ =>
    rw [hheader] at hkept
    rw [place_mark_failed]
    exact hkept
  | @context idx mid e hheader _ _ _ =>
    rw [hheader] at hkept
    rw [place_mark_failed, place_receive_data]
    exact hkept
  | @connect idx mid e coins_tip hheader _ _ _ _ =>
    rw [hheader] at hkept
    have hcoins : { mid.receive_data block idx with coins_tip }.place = mid.place :=
      (place_congr rfl).trans (mid.place_receive_data block idx)
    rw [place_mark_failed, hcoins]
    exact hkept
  | @activate idx mid after undo coins_tip result hheader hknown hcheck hcontext hconnect hactivate =>
    rw [hheader] at hkept hstart hlater
    have hreceived := hstart.receive_data block idx
    have hreach : self.at_connect env block now = some (idx, mid.receive_data block idx) :=
      (at_connect_eq_some env).mpr ⟨mid, hheader, hknown, hcheck, hcontext, rfl⟩
    obtain ⟨_, hchain, _⟩ := at_connect_frame env hreach
    have hconnected : ((mid.receive_data block idx).connected idx coins_tip).place = mid.place :=
      (place_connected _ idx coins_tip).trans (mid.place_receive_data block idx)
    have hlt : idx < (mid.receive_data block idx).arena.length := by
      rw [(mid.receive_data_updates block idx).length]
      exact hstart.find_lt (hlater idx rfl)
    obtain ⟨tip, hpath, _⟩ := hreceived.tip
    have htip := tip_of_path hpath
    by_cases hmore : ((mid.receive_data block idx).entry tip).chain_work <
        ((mid.receive_data block idx).entry idx).chain_work
    · have hparent := hclimbs idx _ undo coins_tip tip hreach hconnect (hchain ▸ htip) hmore
      obtain ⟨hrun, _⟩ := hreceived.activate_child env block_reader coins_tip htip hparent hmore
      rw [hrun] at hactivate
      cases hactivate
      have hreset : (((mid.receive_data block idx).connected idx coins_tip).reset_active_chain_to idx).place =
          ((mid.receive_data block idx).connected idx coins_tip).place := place_congr rfl
      rw [hreset, hconnected]
      exact hkept
    · obtain ⟨hrun, _⟩ := hreceived.activate_stays env block_reader coins_tip htip hlt hmore
      rw [hrun] at hactivate
      cases hactivate
      rw [hconnected]
      exact hkept

theorem Headed.prev_of_grows (hheaded : self.Headed) {block : Block} {now : Int} {block_reader : BlockReader}
    (hclimbs : self.Climbs env block now) {undo : BlockUndo}
    (hresult : (self.process_new_block env block now block_reader).1 = .ok (true, some undo))
    (hunknown : self.block_index.find_by_hash (block.block_hash env.hash256) = none) :
    self.active_hashes.getLast? = some block.header.prev_blockhash := by
  obtain ⟨hstart, _⟩ := hheaded.accept_block_header env block.header now
  have hprocessed := self.process_new_block_processed env block now block_reader
  rw [hresult] at hprocessed
  generalize (self.process_new_block env block now block_reader).2 = after at hprocessed
  generalize hok : (Except.ok (true, some undo) :
    Except (Failure BlockValidationState) (Bool × Option BlockUndo)) = result at hprocessed
  cases hprocessed with
  | header _ => cases hok
  | known _ _ => exact absurd (Prod.mk.inj (Except.ok.inj hok)).2 nofun
  | body _ _ _ => cases hok
  | context _ _ _ _ => cases hok
  | connect _ _ _ _ _ => cases hok
  | @activate idx mid after undo coins_tip result hheader hknown hcheck hcontext hconnect hactivate =>
    rw [hheader] at hstart
    have hreceived := hstart.receive_data block idx
    have hreach : self.at_connect env block now = some (idx, mid.receive_data block idx) :=
      (at_connect_eq_some env).mpr ⟨mid, hheader, hknown, hcheck, hcontext, rfl⟩
    obtain ⟨_, hchain, _⟩ := at_connect_frame env hreach
    obtain ⟨hfound, _⟩ | ⟨prev_idx, _, hnew, rfl, rfl⟩ := accept_block_header_ok env hheader
    · rw [show block.header.block_hash env.hash256 = block.block_hash env.hash256 from rfl, hunknown] at hfound
      cases hfound
    obtain ⟨hprev, _⟩ := check_new_header_ok env hnew
    have hprev_lt := hheaded.find_lt hprev
    obtain ⟨skip, harena, _⟩ := hheaded.toIndexed.add_header_arena env block.header hprev_lt
    obtain ⟨tip, hpath, _⟩ := hreceived.tip
    have htip := tip_of_path hpath
    have hself_tip : self.chain.tip = some tip := hchain ▸ htip
    have hlt : self.arena.length < ((self.add_header env block.header prev_idx).receive_data block
        self.arena.length).arena.length := by
      rw [(receive_data_updates _ block _).length, harena, List.length_append]
      simp
    have hparent_eq : parent_of ((self.add_header env block.header prev_idx).receive_data block
        self.arena.length).arena self.arena.length = some prev_idx := by
      rw [(receive_data_updates _ block _).parent_of, harena]
      unfold parent_of
      rw [getD_of_getElem? List.getElem?_concat_length]
      rfl
    by_cases hmore : (((self.add_header env block.header prev_idx).receive_data block self.arena.length).entry
        tip).chain_work < (((self.add_header env block.header prev_idx).receive_data block self.arena.length).entry
        self.arena.length).chain_work
    · have hparent := hclimbs _ _ undo coins_tip tip hreach hconnect hself_tip hmore
      obtain rfl : prev_idx = tip := Option.some.inj (hparent_eq.symm.trans hparent)
      obtain ⟨index, hat, hhash⟩ := hheaded.by_hash.mp hprev
      rw [active_hashes_getLast? hself_tip, entry_eq hat, hhash]
    · obtain ⟨hrun, _⟩ := hreceived.activate_stays env block_reader coins_tip htip hlt hmore
      rw [hrun] at hactivate
      cases hactivate
      have hsame : (((self.add_header env block.header prev_idx).receive_data block self.arena.length).connected
          self.arena.length coins_tip).chain.tip = some tip := by
        rw [(connected_frame _ _ coins_tip).2.1]
        exact htip
      have hflag := (Prod.mk.inj (Except.ok.inj hok)).1
      rw [hsame, eq_comm, decide_eq_true_eq] at hflag
      obtain ⟨other, hself_path, _⟩ := hheaded.tip
      obtain rfl : other = tip := Option.some.inj ((tip_of_path hself_path).symm.trans hself_tip)
      have := hself_path.1
      have := Option.some.inj hflag
      omega

end ChainstateManager

end qubitcoin.chainstate
