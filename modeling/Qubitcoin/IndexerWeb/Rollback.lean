import Qubitcoin.IndexerWeb.Storage

/-! `qubitcoin-indexer-core/rollback.rs` on the store of the web indexer. -/

open qubitcoin indexer indexer.state

namespace qubitcoin.indexer_web.storage

/-- What the walk over the entries of a key has collected. -/
structure Walk where
  new_len : UInt32
  keys_to_delete : List Bytes
  deleted : UInt32

/-- `*x += 1` for a `u32`. -/
def increment (n : UInt32) : Except Panic UInt32 := if n = U32_MAX then .error (.overflow .u32) else .ok (n + 1)

/-- The walk back from the last one of so many entries. -/
def walk_back (get : Bytes → Option Bytes) (base_key : Bytes) (target_height : UInt32) : Nat → Walk → Except Panic Walk
  | 0, walk => .ok walk
  | n + 1, walk =>
    let idx := UInt32.ofNat n
    let h_key := entry_height_key base_key idx
    match get h_key with
    | none => walk_back get base_key target_height n walk
    | some h_data =>
      if 4 ≤ h_data.length then
        if target_height < from_le_bytes h_data then do
          let deleted ← increment walk.deleted
          walk_back get base_key target_height n ⟨idx, walk.keys_to_delete ++ [index_key base_key idx, h_key], deleted⟩
        else .ok walk
      else walk_back get base_key target_height n walk

/-- The locals of `rollback_to_height`. -/
structure Collected where
  deleted : UInt32
  keys_to_delete_all : List Bytes
  length_updates : List (Bytes × Bytes)

/-- The loop body of `rollback_to_height`. -/
def Collected.add (get : Bytes → Option Bytes) (target_height : UInt32) (self : Collected) (entry : Bytes × UInt32) :
    Except Panic Collected := do
  let walk ← walk_back get entry.1 target_height entry.2.toNat ⟨entry.2, [], self.deleted⟩
  if walk.keys_to_delete.isEmpty then pure { self with deleted := walk.deleted }
  else pure ⟨walk.deleted, self.keys_to_delete_all ++ walk.keys_to_delete,
    self.length_updates ++ [(length_key entry.1, to_le_bytes walk.new_len)]⟩

/-- Take back the entries above a height. The storage is a reader, and what is collected is
    counted and dropped: the storage that stands beside the result is the one that came in. -/
def rollback_to_height {S : Type} (get : S → Bytes → Option Bytes) (storage : S) (target_height : UInt32)
    (keys_with_lengths : List (Bytes × UInt32)) : S × Except Panic UInt32 :=
  (storage, (keys_with_lengths.foldlM (Collected.add (get storage) target_height) ⟨0, [], []⟩).map Collected.deleted)

def kept (calls : List Call) (target_height : UInt32) (key : Bytes) : List Bytes :=
  entries (calls.filter fun call => decide (call.height ≤ target_height)) key

/-- The list of each key holds exactly its entries up to a height. -/
def Truncated (calls : List Call) (target_height : UInt32) (store : WebIndexerStorage) : Prop :=
  ∀ key, (store.get_length key).toNat = (kept calls target_height key).length ∧
    (∀ i value, (kept calls target_height key)[i]? = some value → store.get (index_key key (UInt32.ofNat i)) = some value) ∧
    store.get_latest key = .ok (kept calls target_height key).getLast?

/-- An append that `get_latest` does not search for and whose height is not written over an
    entry of another key. -/
def Undisturbed (before : List Call) (call : Call) : Prop :=
  ¬ Searched call.key ∧
    ∀ value, (entries before (call.key ++ ENTRY_HEIGHT_INFIX))[(entries before call.key).length]? = some value →
      value = to_le_bytes call.height

theorem entries_prefix {before calls : List Call} (hbefore : before <+: calls) (key : Bytes) :
    entries before key <+: entries calls key := by
  obtain ⟨rest, rfl⟩ := hbefore
  exact ⟨entries rest key, (List.filterMap_append).symm⟩

theorem entries_eq_map (calls : List Call) (key : Bytes) :
    entries calls key = (calls.filter fun call => decide (call.key = key)).map Call.value := by
  induction calls with
  | nil => rfl
  | cons call calls ih =>
    unfold entries at ih ⊢
    rw [List.filterMap_cons, List.filter_cons]
    by_cases heq : call.key = key
    · rw [if_pos heq, if_pos (decide_eq_true heq), ih]
      rfl
    · rw [if_neg heq, if_neg (by rwa [decide_eq_true_iff]), ih]

theorem length_kept_lt {calls : List Call} {target_height : UInt32} {call : Call} (hcall : call ∈ calls)
    (habove : ¬ call.height ≤ target_height) :
    (kept calls target_height call.key).length < (entries calls call.key).length := by
  unfold kept
  rw [entries_eq_map, entries_eq_map, List.filter_comm, List.length_map, List.length_map]
  refine List.length_filter_lt_length_iff_exists.mpr ⟨call, ?_, by rwa [decide_eq_true_iff]⟩
  exact List.mem_filter.mpr ⟨hcall, decide_eq_true rfl⟩

theorem kept_eq {calls : List Call} {target_height : UInt32} (hbelow : ∀ call ∈ calls, call.height ≤ target_height)
    (key : Bytes) : kept calls target_height key = entries calls key := by
  rw [kept, List.filter_eq_self.mpr fun call hcall => decide_eq_true (hbelow call hcall)]

theorem stored_of_appended {calls : List Call} : ∀ {store : WebIndexerStorage}, appended calls = .ok store →
    Stored calls store ∧ ∀ key, (entries calls key).length < 2 ^ 32 := by
  induction calls using List.reverseRecOn with
  | nil =>
    intro store happended
    obtain rfl := Except.ok.inj happended
    exact ⟨fun _ => rfl, fun _ => Nat.two_pow_pos 32⟩
  | append_singleton calls call ih =>
    intro store happended
    rw [appended_concat] at happended
    obtain ⟨earlier, hearlier, hnext⟩ := bind_eq_ok_iff.mp happended
    obtain ⟨hstored, hfits⟩ := ih hearlier
    have hfew : (entries calls call.key).length < 2 ^ 32 - 1 := by
      have hfit := hfits call.key
      by_contra hfull
      have hmax : earlier.get_length call.key = U32_MAX := by
        rw [hstored.get_length, show (entries calls call.key).length = 2 ^ 32 - 1 by omega]
        rfl
      rw [WebIndexerStorage.append] at hnext
      dsimp only at hnext
      rw [if_pos hmax] at hnext
      cases hnext
    obtain ⟨hafter, hstored_after⟩ := hstored.append hfew
    obtain rfl := Except.ok.inj (hafter.symm.trans hnext)
    refine ⟨hstored_after, fun key => ?_⟩
    rw [entries_concat]
    split
    · next heq =>
      subst heq
      rw [List.length_append, List.length_singleton]
      omega
    · exact hfits key

section

variable {calls : List Call} {store : WebIndexerStorage} {call : Call}

theorem get_after (hfew : (entries calls call.key).length < 2 ^ 32 - 1) {key : Bytes} {i : Nat} (hi : i < 2 ^ 32 - 1) :
    (after store calls call).get (index_key key (UInt32.ofNat i)) =
      if key = call.key ++ ENTRY_HEIGHT_INFIX ∧ i = (entries calls call.key).length then some (to_le_bytes call.height)
      else if key = call.key ∧ i = (entries calls call.key).length then some call.value
      else store.get (index_key key (UInt32.ofNat i)) := by
  have hsame : UInt32.ofNat i = UInt32.ofNat (entries calls call.key).length ↔ i = (entries calls call.key).length := by
    rw [← UInt32.toNat_inj, UInt32.toNat_ofNat_of_lt' (by rw [UInt32.size]; omega),
      UInt32.toNat_ofNat_of_lt' (by rw [UInt32.size]; omega)]
  rw [after, get_put_entry_index_key (ofNat_length_ne_max hi)]
  simp only [hsame]

/-- The entries of all lists are in their slots. -/
def Intact (calls : List Call) (store : WebIndexerStorage) : Prop :=
  ∀ key i value, (entries calls key)[i]? = some value → store.get (index_key key (UInt32.ofNat i)) = some value

theorem Intact.append (hintact : Intact calls store) (hfits : ∀ key, (entries calls key).length < 2 ^ 32)
    (hfew : (entries calls call.key).length < 2 ^ 32 - 1)
    (hundisturbed : ∀ value, (entries calls (call.key ++ ENTRY_HEIGHT_INFIX))[(entries calls call.key).length]? = some value →
      value = to_le_bytes call.height) : Intact (calls ++ [call]) (after store calls call) := by
  intro key i value hvalue
  rw [entries_concat] at hvalue
  by_cases heq : call.key = key
  · subst heq
    rw [if_pos rfl] at hvalue
    have hi := (List.getElem?_eq_some_iff.mp hvalue).choose
    rw [List.length_append, List.length_singleton] at hi
    rw [get_after hfew (by omega), if_neg fun hsame => append_infix_ne call.key hsame.1]
    by_cases hlast : i = (entries calls call.key).length
    · subst hlast
      rw [List.getElem?_concat_length] at hvalue
      rw [if_pos ⟨rfl, rfl⟩, hvalue]
    · rw [if_neg fun hsame => hlast hsame.2]
      rw [List.getElem?_append_left (by omega)] at hvalue
      exact hintact _ _ _ hvalue
  · rw [if_neg heq] at hvalue
    have hi := (List.getElem?_eq_some_iff.mp hvalue).choose
    have hfit := hfits key
    rw [get_after hfew (by omega)]
    split
    · next hmeet =>
      obtain ⟨rfl, rfl⟩ := hmeet
      rw [hundisturbed value hvalue]
    · rw [if_neg fun hsame => heq hsame.1.symm]
      exact hintact key i value hvalue

theorem Intact.latest (hintact : Intact calls store) : Latest calls store := by
  intro key hne
  have hpos := List.length_pos_of_ne_nil hne
  rw [last_index_eq hne, List.getLast?_eq_getElem?]
  obtain ⟨value, hvalue⟩ : ∃ value, (entries calls key)[(entries calls key).length - 1]? = some value :=
    ⟨_, List.getElem?_eq_getElem (by omega)⟩
  rw [hintact key _ value hvalue, hvalue]

end

theorem intact_of_undisturbed {calls : List Call}
    (hundisturbed : ∀ before call, before ++ [call] <+: calls → Undisturbed before call) :
    ∀ {store : WebIndexerStorage}, appended calls = .ok store → Intact calls store := by
  induction calls using List.reverseRecOn with
  | nil => exact fun _ key i value hvalue => by cases hvalue
  | append_singleton calls call ih =>
    intro store happended
    have hlast := (stored_of_appended happended).2 call.key
    rw [entries_concat, if_pos rfl, List.length_append, List.length_singleton] at hlast
    rw [appended_concat] at happended
    obtain ⟨earlier, hearlier, hnext⟩ := bind_eq_ok_iff.mp happended
    obtain ⟨hstored, hfits⟩ := stored_of_appended hearlier
    obtain ⟨hafter, _⟩ := @Stored.append _ _ call hstored (by omega)
    obtain rfl := Except.ok.inj (hafter.symm.trans hnext)
    have hintact := ih (fun before other hfront => hundisturbed before other (hfront.trans (List.prefix_append _ _))) hearlier
    exact hintact.append hfits (by omega) (hundisturbed calls call (List.prefix_refl _)).2

theorem get_settled {calls rest : List Call} {key : Bytes} {i : Nat} (hi : i < (entries calls key).length)
    (hother : i < (entries calls (key ++ ENTRY_HEIGHT_INFIX)).length) {earlier : WebIndexerStorage}
    (hearlier : appended calls = .ok earlier) : ∀ {store : WebIndexerStorage}, appended (calls ++ rest) = .ok store →
      store.get (index_key (key ++ ENTRY_HEIGHT_INFIX) (UInt32.ofNat i)) =
        earlier.get (index_key (key ++ ENTRY_HEIGHT_INFIX) (UInt32.ofNat i)) := by
  induction rest using List.reverseRecOn with
  | nil =>
    intro store happended
    rw [List.append_nil, hearlier] at happended
    rw [Except.ok.inj happended]
  | append_singleton rest call ih =>
    intro store happended
    rw [← List.append_assoc, appended_concat] at happended
    obtain ⟨before, hbefore, hnext⟩ := bind_eq_ok_iff.mp happended
    obtain ⟨hstored, hfits⟩ := stored_of_appended hbefore
    have hgrow : ∀ key, (entries calls key).length ≤ (entries (calls ++ rest) key).length :=
      length_entries_le (List.prefix_append _ _)
    have hfits_after := (stored_of_appended ((appended_concat _ _).trans happended)).2 call.key
    rw [entries_concat, if_pos rfl, List.length_append, List.length_singleton] at hfits_after
    obtain ⟨hafter, _⟩ := @Stored.append _ _ call hstored (by omega)
    obtain rfl := Except.ok.inj (hafter.symm.trans hnext)
    have hkey := hgrow key
    have hwritten := hgrow (key ++ ENTRY_HEIGHT_INFIX)
    have hfit := hfits key
    rw [get_after (by omega) (by omega), if_neg ?_, if_neg ?_, ih hbefore]
    · rintro ⟨heq, hlast⟩
      rw [heq] at hwritten hother
      omega
    · rintro ⟨heq, hlast⟩
      obtain rfl := List.append_cancel_right heq
      omega

/-- After a rollback each list holds exactly its entries up to the target, if and only if there
    is nothing above the target to take back and no list has been disturbed by another. -/
theorem rollback_truncates_iff {calls : List Call} {store : WebIndexerStorage} {target_height : UInt32}
    (happended : appended calls = .ok store) :
    Truncated calls target_height
        (rollback_to_height WebIndexerStorage.get store target_height store.keys_with_lengths).1 ↔
      (∀ call ∈ calls, call.height ≤ target_height) ∧
        ∀ before call, before ++ [call] <+: calls → Undisturbed before call := by
  obtain ⟨hstored, hfits⟩ := stored_of_appended happended
  have hlength : ∀ key, (store.get_length key).toNat = (entries calls key).length := by
    intro key
    rw [hstored.get_length, UInt32.toNat_ofNat_of_lt' (hfits key)]
  constructor
  · intro htruncated
    have hbelow : ∀ call ∈ calls, call.height ≤ target_height := by
      intro call hcall
      by_contra habove
      have hless := length_kept_lt hcall habove
      rw [← (htruncated call.key).1, rollback_to_height, hlength] at hless
      exact Nat.lt_irrefl _ hless
    refine ⟨hbelow, fun before call hfront => ⟨fun hsearched => ?_, fun value hvalue => ?_⟩⟩
    · obtain ⟨rest, rfl⟩ := hfront
      obtain ⟨base, hwritten, hbase, hunwritten⟩ := @exists_longest (before ++ [call] ++ rest)
        ⟨call, List.mem_append_left rest (List.mem_append_right before List.mem_cons_self), hsearched⟩
      obtain ⟨why, hpanic⟩ := hstored.get_latest_panics hwritten hbase hunwritten
      have hread := (htruncated (length_key base)).2.2
      rw [rollback_to_height, hpanic] at hread
      cases hread
    · obtain ⟨rest, rfl⟩ := hfront
      -- The height is written where the entry is, and nothing is written there after it.
      obtain ⟨next, hnext⟩ : ∃ next, appended (before ++ [call]) = .ok next := by
        have hsplit := happended
        unfold appended at hsplit
        rw [List.foldlM_append] at hsplit
        obtain ⟨next, hnext, _⟩ := bind_eq_ok_iff.mp hsplit
        exact ⟨next, hnext⟩
      obtain ⟨earlier, hearlier, hlast⟩ := bind_eq_ok_iff.mp ((appended_concat before call).symm.trans hnext)
      have hfits_next := (stored_of_appended hnext).2 call.key
      rw [entries_concat, if_pos rfl, List.length_append, List.length_singleton] at hfits_next
      obtain ⟨hafter, _⟩ := @Stored.append _ _ call (stored_of_appended hearlier).1 (by omega)
      obtain rfl := Except.ok.inj (hafter.symm.trans hlast)
      have hposition := (List.getElem?_eq_some_iff.mp hvalue).choose
      have hsettled := @get_settled (before ++ [call]) rest call.key (entries before call.key).length
        (by rw [entries_concat, if_pos rfl, List.length_append, List.length_singleton]; omega)
        (by rw [entries_concat, if_neg (append_infix_ne call.key)]; exact hposition) _ hnext _ happended
      rw [get_after (by omega) (by omega), if_pos ⟨rfl, rfl⟩] at hsettled
      have hheld := (htruncated (call.key ++ ENTRY_HEIGHT_INFIX)).2.1 (entries before call.key).length value (by
        rw [kept_eq hbelow]
        obtain ⟨more, hmore⟩ := entries_prefix (List.prefix_append (before ++ [call]) rest) (call.key ++ ENTRY_HEIGHT_INFIX)
        rw [← hmore, entries_concat, if_neg (append_infix_ne call.key), List.getElem?_append_left hposition, hvalue])
      rw [rollback_to_height, hsettled] at hheld
      exact (Option.some.inj hheld).symm
  · rintro ⟨hbelow, hundisturbed⟩
    have hintact := intact_of_undisturbed hundisturbed happended
    have hanswers := hstored.answers hintact.latest hfits fun call hcall => by
      obtain ⟨before, rest, rfl⟩ := List.append_of_mem hcall
      exact (hundisturbed before call ⟨rest, by simp⟩).1
    intro key
    rw [kept_eq hbelow]
    exact ⟨(hanswers key).2, hintact key, (hanswers key).1⟩

/-- The entries of several keys up to the height to which is rolled back stay. -/
theorem rollback_truncates_separate :
    ∃ store, appended separate_calls = .ok store ∧ kept separate_calls 9 [0x61] = [[1], [3]] ∧
      kept separate_calls 9 [0x62] = [[2], [2]] ∧
      Truncated separate_calls 9 (rollback_to_height WebIndexerStorage.get store 9 store.keys_with_lengths).1 := by
  obtain ⟨store, happended, _⟩ := @exists_appended separate_calls fun key =>
    (length_entries_le_length _ key).trans_lt (by decide)
  have hundisturbed : ∀ n (hn : n < separate_calls.length), ¬ Searched separate_calls[n].key ∧
      ∀ value ∈ (entries (separate_calls.take n) (separate_calls[n].key ++ ENTRY_HEIGHT_INFIX))[(entries
        (separate_calls.take n) separate_calls[n].key).length]?, value = to_le_bytes separate_calls[n].height := by
    unfold Searched
    decide
  exact ⟨store, happended, by decide, by decide,
    (rollback_truncates_iff happended).mpr ⟨by decide, forall_prefix_concat hundisturbed⟩⟩

/-- An entry above that height stays too. -/
theorem rollback_keeps_later_entry :
    (appended [⟨[0x61], [0x78], 5⟩]).map (fun store =>
      (rollback_to_height WebIndexerStorage.get store 4 store.keys_with_lengths).1.get_length [0x61]) = .ok 1 ∧
    kept [⟨[0x61], [0x78], 5⟩] 4 [0x61] = [] := by
  constructor
  · decide +kernel
  · decide

end qubitcoin.indexer_web.storage
