import Qubitcoin.Net.Indexed
import Qubitcoin.Net.RoundTrip

/-! Every index and every slice that the parser of messages takes is within the payload. -/

open qubitcoin primitives protocol
open qubitcoin.net_processing (InvType InvVect)

namespace qubitcoin.connection.indexed

open slices

variable {data payload : Bytes} {pos : Nat}

theorem take_drop_two (hpos : pos + 1 < data.length) : (data.drop pos).take 2 = [data[pos], data[pos + 1]] := by
  rw [List.drop_eq_getElem_cons (Nat.lt_of_succ_lt hpos), List.drop_eq_getElem_cons hpos]
  rfl

theorem take_drop_four (hpos : pos + 3 < data.length) :
    (data.drop pos).take 4 = [data[pos], data[pos + 1], data[pos + 2], data[pos + 3]] := by
  have hsplit : (data.drop pos).take 4 = (data.drop pos).take 2 ++ (data.drop (pos + 2)).take 2 := by
    rw [← List.drop_drop, ← List.take_add]
  rw [hsplit, take_drop_two (Nat.lt_of_succ_lt (Nat.lt_of_succ_lt hpos)), take_drop_two hpos]
  rfl

theorem read_bytes_of_le {n : Nat} (hlength : n ≤ data.length) : read_bytes n data = some (data.take n, data.drop n) :=
  if_neg (Nat.not_lt.mpr hlength)

theorem read_bytes_drop {n : Nat} (hlength : pos + n ≤ data.length) :
    read_bytes n (data.drop pos) = some ((data.drop pos).take n, data.drop (pos + n)) := by
  rw [read_bytes_of_le (by rw [List.length_drop]; omega), List.drop_drop]

theorem number_at_eq {n : Nat} (hstop : pos + n ≤ data.length) (hfits : pos + n < 2 ^ 64) :
    number_at n data pos = .ok ((data.drop pos).take n) := by
  rw [number_at, add_of_lt hfits]
  dsimp only [bind, Except.bind]
  rw [slice_of_le (Nat.le_add_right pos n) hstop, Nat.add_sub_cancel_left]
  dsimp only
  rw [try_into_take_drop hstop]
  rfl

theorem hash_between_eq {stop : Nat} (hthirty_two : stop = pos + 32) (hstop : stop ≤ data.length) :
    hash_between data pos stop = .ok (Uint256.from_bytes ((data.drop pos).take 32)) := by
  subst hthirty_two
  rw [hash_between, slice_of_le (Nat.le_add_right pos 32) hstop, Nat.add_sub_cancel_left]
  dsimp only [bind, Except.bind]
  rw [copy_take_drop hstop]

theorem read_wide_cons (first : UInt8) (rest : Bytes) (n : Nat) :
    read_wide (first :: rest) n = .ok ((connection.bounded n rest).map fun found => (found.1, n + 1)) := by
  unfold read_wide connection.bounded
  rw [List.length_cons]
  by_cases hshort : rest.length < n
  · rw [if_pos (by omega), if_pos hshort]
    rfl
  · have hlength : (rest.take n).length = n := by
      rw [List.length_take]
      omega
    rw [if_neg (by omega), if_neg hshort, slice_of_le (by omega) (by rw [List.length_cons]; omega), List.drop_one,
      List.tail_cons, Nat.add_sub_cancel]
    dsimp only [bind, Except.bind]
    rw [try_into_eq hlength, Option.bind_some, bounded]
    split <;> rfl

theorem bounded_eq_some {n val : Nat} {rest found : Bytes} (hbounded : connection.bounded n rest = some (val, found)) :
    n ≤ rest.length ∧ val ≤ MAX_PAYLOAD_SIZE ∧ found = rest.drop n := by
  unfold connection.bounded at hbounded
  split at hbounded
  · cases hbounded
  · next hlong =>
    split at hbounded
    · next hsmall =>
      cases hbounded
      exact ⟨Nat.not_lt.mp hlong, hsmall, rfl⟩
    · cases hbounded

theorem read_varint_spec (data : Bytes) :
    (read_varint data = .ok none ∧ connection.read_varint data = none) ∨
      ∃ val n, read_varint data = .ok (some (val, n)) ∧ connection.read_varint data = some (val, data.drop n) ∧
        n ≤ data.length ∧ val ≤ MAX_PAYLOAD_SIZE := by
  cases data with
  | nil => exact .inl ⟨rfl, rfl⟩
  | cons first rest =>
    have hwide : ∀ size, (read_wide (first :: rest) size = .ok none ∧ connection.bounded size rest = none) ∨
        ∃ val n, read_wide (first :: rest) size = .ok (some (val, n)) ∧
          connection.bounded size rest = some (val, (first :: rest).drop n) ∧
          n ≤ (first :: rest).length ∧ val ≤ MAX_PAYLOAD_SIZE := by
      intro size
      rw [read_wide_cons]
      cases hbounded : connection.bounded size rest with
      | none => exact .inl ⟨rfl, rfl⟩
      | some found =>
        obtain ⟨val, after⟩ := found
        obtain ⟨hlength, hval, rfl⟩ := bounded_eq_some hbounded
        exact .inr ⟨val, size + 1, rfl, rfl, Nat.succ_le_succ hlength, hval⟩
    have hindex : index (first :: rest) 0 = .ok first := rfl
    unfold read_varint connection.read_varint
    rw [List.isEmpty_cons, if_neg Bool.false_ne_true, hindex]
    dsimp only [bind, Except.bind]
    by_cases hff : first = 0xff
    · rw [if_pos hff, if_pos hff]
      exact hwide 8
    · rw [if_neg hff, if_neg hff]
      by_cases hfe : first = 0xfe
      · rw [if_pos hfe, if_pos hfe]
        exact hwide 4
      · rw [if_neg hfe, if_neg hfe]
        by_cases hfd : first = 0xfd
        · rw [if_pos hfd, if_pos hfd]
          exact hwide 2
        · rw [if_neg hfd, if_neg hfd]
          have hsmall : first.toNat < 256 := first.toNat_lt
          refine .inr ⟨first.toNat, 1, rfl, rfl, Nat.succ_le_succ (Nat.zero_le _), ?_⟩
          unfold MAX_PAYLOAD_SIZE
          omega

theorem ip_of_bytes_eq {bytes : Bytes} (hlength : bytes.length = 16) : ip_of_bytes bytes = .ok (ip_from_octets bytes) := by
  rw [ip_of_bytes, slice_of_le (Nat.zero_le 12) (by omega), ip_from_octets, List.drop_zero]
  dsimp only [bind, Except.bind]
  by_cases hfront : bytes.take (12 - 0) = ipv4_prefix
  · have hlast : #v[bytes[12], bytes[13], bytes[14], bytes[15]] = octets 4 (bytes.drop 12) := by
      have hdrop : bytes.drop 12 = [bytes[12], bytes[13], bytes[14], bytes[15]] := by
        rw [← take_drop_four (by omega), List.take_of_length_le (by rw [List.length_drop]; omega)]
      rw [hdrop]
      rfl
    rw [if_pos hfront, if_pos hfront, index_of_lt (by omega), index_of_lt (by omega), index_of_lt (by omega),
      index_of_lt (by omega), ← hlast]
  · rw [if_neg hfront, if_neg hfront]

theorem deserialize_net_address_run (data : Bytes) :
    (deserialize_net_address data).run = .ok (connection.deserialize_net_address data) := by
  unfold deserialize_net_address connection.deserialize_net_address
  by_cases hshort : data.length < 26
  · rw [if_pos hshort, if_pos hshort]
    rfl
  · have hservices : ((data.drop 0).take 8).length = 8 := length_take_drop (by omega)
    have hip : ((data.drop 8).take 16).length = 16 := length_take_drop (by omega)
    rw [if_neg hshort, if_neg hshort, run_access_bind (slice_of_le (by omega) (by omega)), run_attempt_bind,
      try_into_eq hservices]
    dsimp only
    rw [run_access_bind (slice_of_le (by omega) (by omega)), run_attempt_bind, try_into_eq hip]
    dsimp only
    rw [run_access_bind (ip_of_bytes_eq hip), run_access_bind (index_of_lt (by omega)),
      run_access_bind (index_of_lt (by omega)), take_drop_two (by omega)]
    rfl

/-- User agent, start height and the flag for relaying, from what stands after the nonce. -/
def user_agent_of (data : Bytes) : Option (Bytes × Bytes × Bool) := do
  let (ua_len, data) ← connection.read_varint data
  let (user_agent, data) ← read_bytes ua_len data
  let (start_height, data) ← read_bytes 4 data
  pure (user_agent, start_height, match data with
    | [] => true
    | relay :: _ => relay != 0)

theorem deserialize_user_agent_run (hlength : 80 ≤ data.length) (hsize : data.length ≤ MAX_PAYLOAD_SIZE) :
    (deserialize_user_agent data).run = .ok (user_agent_of (data.drop 80)) := by
  have hbound : MAX_PAYLOAD_SIZE = 4000000 := rfl
  have hrest : (data.drop 80).length = data.length - 80 := List.length_drop
  unfold deserialize_user_agent user_agent_of
  rw [run_access_bind (slice_length hlength)]
  obtain ⟨hread, hvalue⟩ | ⟨ua_len, varint_size, hread, hvalue, hend, hsmall⟩ := read_varint_spec (data.drop 80)
  · rw [hread, hvalue]
    rfl
  · have hstart : add 80 varint_size = .ok (80 + varint_size) := add_of_lt (by omega)
    have hagent : checked_add (80 + varint_size) ua_len = some (80 + varint_size + ua_len) := checked_add_of_lt (by omega)
    have hheight : add (80 + varint_size + ua_len) 4 = .ok (80 + varint_size + ua_len + 4) := add_of_lt (by omega)
    rw [hread, hvalue, List.drop_drop]
    change (access (add 80 varint_size) >>= _).run = _
    rw [run_access_bind hstart, hagent, run_attempt_bind]
    dsimp only
    rw [Option.bind_eq_bind, Option.bind_some]
    by_cases hcut : data.length < 80 + varint_size + ua_len
    · rw [if_pos hcut, read_bytes, if_pos (by rw [List.length_drop]; omega)]
      rfl
    · rw [if_neg hcut, run_access_bind (slice_of_le (by omega) (by omega)), run_access_bind hheight,
        Nat.add_sub_cancel_left, read_bytes_of_le (by rw [List.length_drop]; omega), Option.bind_eq_bind, Option.bind_some]
      dsimp only
      rw [List.drop_drop]
      by_cases hshort : data.length < 80 + varint_size + ua_len + 4
      · rw [if_pos hshort, read_bytes, if_pos (by rw [List.length_drop]; omega)]
        rfl
      · rw [if_neg hshort, run_access_bind (slice_of_le (by omega) (by omega)), Nat.add_sub_cancel_left,
          try_into_take_drop (by omega), run_attempt_bind, read_bytes_of_le (by rw [List.length_drop]; omega)]
        dsimp only
        rw [Option.bind_some]
        dsimp only
        rw [List.drop_drop]
        by_cases hrelay : data.length > 80 + varint_size + ua_len + 4
        · rw [if_pos hrelay, run_access_bind (index_of_lt hrelay), List.drop_eq_getElem_cons hrelay]
          rfl
        · rw [if_neg hrelay, List.drop_of_length_le (Nat.not_lt.mp hrelay)]
          rfl

theorem deserialize_net_address_take (hstop : pos + 26 ≤ data.length) :
    ∃ addr, connection.deserialize_net_address ((data.drop pos).take 26) = some addr ∧
      (deserialize_net_address ((data.drop pos).take 26)).run = .ok (some addr) := by
  have haddr := deserialize_net_address_run ((data.drop pos).take 26)
  refine ⟨_, if_neg (Nat.not_lt.mpr (Nat.le_of_eq (length_take_drop hstop).symm)), ?_⟩
  rw [haddr, connection.deserialize_net_address, if_neg (Nat.not_lt.mpr (Nat.le_of_eq (length_take_drop hstop).symm))]

theorem deserialize_version_short (hshort : data.length < 80) : connection.deserialize_version data = none := by
  refine Option.eq_none_iff_forall_ne_some.mpr fun msg hmsg => ?_
  unfold connection.deserialize_version at hmsg
  have hread : ∀ {n : Nat} {data bytes rest : Bytes}, read_bytes n data = some (bytes, rest) →
      data.length = n + rest.length := by
    intro n data bytes rest h
    unfold read_bytes at h
    split at h
    · cases h
    · next hlong =>
      cases h
      rw [List.length_drop]
      omega
  obtain ⟨⟨version, data₁⟩, hversion, hmsg⟩ := Option.bind_eq_some_iff.mp hmsg
  obtain ⟨⟨services, data₂⟩, hservices, hmsg⟩ := Option.bind_eq_some_iff.mp hmsg
  obtain ⟨⟨timestamp, data₃⟩, htimestamp, hmsg⟩ := Option.bind_eq_some_iff.mp hmsg
  obtain ⟨⟨addr_recv, data₄⟩, hrecv, hmsg⟩ := Option.bind_eq_some_iff.mp hmsg
  obtain ⟨_, -, hmsg⟩ := Option.bind_eq_some_iff.mp hmsg
  obtain ⟨⟨addr_from, data₅⟩, hfrom, hmsg⟩ := Option.bind_eq_some_iff.mp hmsg
  obtain ⟨_, -, hmsg⟩ := Option.bind_eq_some_iff.mp hmsg
  obtain ⟨⟨nonce, data₆⟩, hnonce, -⟩ := Option.bind_eq_some_iff.mp hmsg
  have := hread hversion
  have := hread hservices
  have := hread htimestamp
  have := hread hrecv
  have := hread hfrom
  have := hread hnonce
  omega

theorem deserialize_version_run (hsize : data.length ≤ MAX_PAYLOAD_SIZE) :
    (deserialize_version data).run = .ok (connection.deserialize_version data) := by
  by_cases hlong : 80 ≤ data.length
  · obtain ⟨recv, hrecv, hrecv_run⟩ := @deserialize_net_address_take data 20 (by omega)
    obtain ⟨source, hfrom, hfrom_run⟩ := @deserialize_net_address_take data 46 (by omega)
    have hagent := deserialize_user_agent_run hlong hsize
    have hversion : [data[0], data[1], data[2], data[3]] = data.take 4 := (@take_drop_four data 0 (by omega)).symm
    unfold deserialize_version
    rw [if_neg (by omega), run_access_bind (index_of_lt (by omega)), run_access_bind (index_of_lt (by omega)),
      run_access_bind (index_of_lt (by omega)), run_access_bind (index_of_lt (by omega)),
      run_access_bind (slice_of_le (by omega) (by omega)), try_into_take_drop (by omega), run_attempt_bind]
    dsimp only
    rw [run_access_bind (slice_of_le (by omega) (by omega)), try_into_take_drop (by omega), run_attempt_bind]
    dsimp only
    rw [run_access_bind (slice_of_le (by omega) (by omega)), run_bind_of_some hrecv_run, if_neg (by omega),
      run_access_bind (slice_of_le (by omega) (by omega)), run_bind_of_some hfrom_run, if_neg (by omega),
      run_access_bind (slice_of_le (by omega) (by omega)), try_into_take_drop (by omega), run_attempt_bind]
    dsimp only
    unfold connection.deserialize_version
    have hread : read_bytes 4 data = some (data.take 4, data.drop 4) := read_bytes_of_le (by omega)
    simp only [hread, @read_bytes_drop data 4 8 (by omega), @read_bytes_drop data 12 8 (by omega),
      @read_bytes_drop data 20 26 (by omega), hrecv, @read_bytes_drop data 46 26 (by omega), hfrom,
      @read_bytes_drop data 72 8 (by omega), Option.bind_eq_bind, Option.bind_some, Nat.reduceAdd]
    rw [hversion]
    unfold user_agent_of at hagent
    cases hlen : connection.read_varint (data.drop 80) with
    | none =>
      rw [hlen] at hagent
      exact run_bind_of_none hagent _
    | some found =>
      obtain ⟨ua_len, after_len⟩ := found
      rw [hlen, Option.bind_eq_bind, Option.bind_some] at hagent
      rw [Option.bind_some]
      dsimp only at hagent ⊢
      cases huser : read_bytes ua_len after_len with
      | none =>
        rw [huser] at hagent
        exact run_bind_of_none hagent _
      | some found =>
        obtain ⟨user_agent, after_agent⟩ := found
        rw [huser, Option.bind_eq_bind, Option.bind_some] at hagent
        rw [Option.bind_some]
        dsimp only at hagent ⊢
        cases hheight : read_bytes 4 after_agent with
        | none =>
          rw [hheight] at hagent
          exact run_bind_of_none hagent _
        | some found =>
          rw [hheight] at hagent
          rw [run_bind_of_some hagent, Option.bind_some]
          rfl
  · rw [deserialize_version_short (Nat.not_le.mp hlong)]
    unfold deserialize_version
    by_cases hshort : data.length < 46
    · rw [if_pos hshort]
      rfl
    · obtain ⟨recv, -, hrecv_run⟩ := @deserialize_net_address_take data 20 (by omega)
      rw [if_neg hshort, run_access_bind (index_of_lt (by omega)), run_access_bind (index_of_lt (by omega)),
        run_access_bind (index_of_lt (by omega)), run_access_bind (index_of_lt (by omega)),
        run_access_bind (slice_of_le (by omega) (by omega)), try_into_take_drop (by omega), run_attempt_bind]
      dsimp only
      rw [run_access_bind (slice_of_le (by omega) (by omega)), try_into_take_drop (by omega), run_attempt_bind]
      dsimp only
      rw [run_access_bind (slice_of_le (by omega) (by omega)), run_bind_of_some hrecv_run]
      by_cases hsource : data.length < 72
      · rw [if_pos hsource]
        rfl
      · obtain ⟨source, -, hfrom_run⟩ := @deserialize_net_address_take data 46 (by omega)
        rw [if_neg hsource, run_access_bind (slice_of_le (by omega) (by omega)), run_bind_of_some hfrom_run,
          if_pos (Nat.not_le.mp hlong)]
        rfl

theorem read_entries_eq {A : Type} (size : Nat) (read : Bytes → Option A) (count : Nat) (data : Bytes) :
    read_entries size read count data = entries_of size read count data := by
  induction count generalizing data with
  | zero => rfl
  | succ count ih =>
    rw [read_entries, entries_of]
    split
    · rfl
    · rw [ih]

theorem parse_list_eq {A : Type} {size : Nat} {read : Bytes → Nat → Except Fault (Option A)} {value : Bytes → Option A}
    (hsize : data.length + size < 2 ^ 64)
    (hread : ∀ pos, pos + size ≤ data.length → read data pos = .ok (value ((data.drop pos).take size))) :
    parse_list size read data = .ok (connection.parse_list size value data) := by
  unfold parse_list connection.parse_list
  obtain ⟨hnumber, hvalue⟩ | ⟨count, offset, hnumber, hvalue, hoffset, -⟩ := read_varint_spec data
  · rw [hnumber, hvalue]
    rfl
  · obtain ⟨last, -, hentries, -⟩ := entries_eq_ok hsize hread count hoffset
    rw [hnumber, hvalue]
    dsimp only [bind, Except.bind]
    rw [hentries, read_entries_eq]
    rfl

theorem take_drop_rest {size start : Nat} :
    ((data.drop pos).take size).drop start = (data.drop (pos + start)).take (size - start) := by
  rw [List.drop_take, List.drop_drop]

theorem take_entry {size n : Nat} (hinside : n ≤ size) :
    ((data.drop pos).take size).take n = (data.drop pos).take n := by
  rw [List.take_take, Nat.min_eq_left hinside]

theorem inv_at_eq (hsize : data.length ≤ MAX_PAYLOAD_SIZE) (hstop : pos + 36 ≤ data.length) :
    inv_at data pos = .ok (some (parse_inv ((data.drop pos).take 36))) := by
  have hbound : MAX_PAYLOAD_SIZE = 4000000 := rfl
  have hstart : add pos 4 = .ok (pos + 4) := add_of_lt (by omega)
  have hend : add pos 36 = .ok (pos + 36) := add_of_lt (by omega)
  rw [inv_at, number_at_eq (by omega) (by omega), hstart, hend]
  dsimp only [bind, Except.bind]
  rw [hash_between_eq (by omega) hstop, parse_inv, take_entry (by omega), take_drop_rest]

theorem header_at_eq (hsize : data.length ≤ MAX_PAYLOAD_SIZE) (hstop : pos + 81 ≤ data.length) :
    header_at data pos = .ok (some (((data.drop pos).take 81).take 80)) := by
  have hbound : MAX_PAYLOAD_SIZE = 4000000 := rfl
  have hend : add pos 80 = .ok (pos + 80) := add_of_lt (by omega)
  rw [header_at, hend]
  dsimp only [bind, Except.bind]
  rw [slice_of_le (by omega) (by omega), Nat.add_sub_cancel_left, take_entry (by omega)]

theorem addr_at_eq (hsize : data.length ≤ MAX_PAYLOAD_SIZE) (hstop : pos + 30 ≤ data.length) :
    addr_at data pos = .ok ((connection.deserialize_net_address (((data.drop pos).take 30).drop 4)).map
      fun addr => (u32_from_bytes (((data.drop pos).take 30).take 4), addr)) := by
  have hbound : MAX_PAYLOAD_SIZE = 4000000 := rfl
  have hstart : add pos 4 = .ok (pos + 4) := add_of_lt (by omega)
  have hend : add pos 30 = .ok (pos + 30) := add_of_lt (by omega)
  rw [addr_at, number_at_eq (by omega) (by omega), hstart, hend]
  dsimp only [bind, Except.bind]
  rw [slice_of_le (by omega) hstop, Nat.add_sub_add_left]
  dsimp only
  rw [deserialize_net_address_run, take_entry (by omega), take_drop_rest]

theorem locator_at_eq (hsize : data.length ≤ MAX_PAYLOAD_SIZE) (hstop : pos + 32 ≤ data.length) :
    locator_at data pos = .ok (some (Uint256.from_bytes ((data.drop pos).take 32))) := by
  have hbound : MAX_PAYLOAD_SIZE = 4000000 := rfl
  have hend : add pos 32 = .ok (pos + 32) := add_of_lt (by omega)
  rw [locator_at, hend]
  dsimp only [bind, Except.bind]
  rw [hash_between_eq rfl hstop]

theorem parse_nonce_eq (payload : Bytes) : parse_nonce payload = .ok (connection.parse_nonce payload) := by
  unfold parse_nonce connection.parse_nonce
  by_cases hlong : payload.length ≥ 8
  · have hnonce : (payload.take 8).length = 8 := by
      rw [List.length_take]
      omega
    rw [if_pos hlong, if_pos hlong, slice_of_le (Nat.zero_le 8) hlong, List.drop_zero]
    dsimp only [bind, Except.bind]
    rw [try_into_eq hnonce]
    rfl
  · rw [if_neg hlong, if_neg hlong]

theorem parse_sendtxrcncl_eq (payload : Bytes) :
    parse_sendtxrcncl payload =
      .ok (if payload.length ≥ 12 then
        some (u32_from_bytes (payload.take 4), u64_from_bytes ((payload.drop 4).take 8)) else none) := by
  unfold parse_sendtxrcncl
  by_cases hlong : payload.length ≥ 12
  · have hversion : (payload.take 4).length = 4 := by
      rw [List.length_take]
      omega
    rw [if_pos hlong, if_pos hlong, slice_of_le (Nat.zero_le 4) (by omega), List.drop_zero]
    dsimp only [bind, Except.bind]
    rw [try_into_eq hversion]
    dsimp only [unwrap]
    rw [slice_of_le (by omega) hlong]
    dsimp only
    rw [try_into_take_drop (by omega)]
  · rw [if_neg hlong, if_neg hlong]

theorem parse_sendcmpct_cons (announce : UInt8) (data : Bytes) :
    parse_sendcmpct (announce :: data) =
      .ok (if data.length ≥ 8 then some (announce != 0, u64_from_bytes (data.take 8)) else none) := by
  unfold parse_sendcmpct
  rw [List.length_cons]
  by_cases hlong : data.length ≥ 8
  · have hversion : (data.take 8).length = 8 := by
      rw [List.length_take]
      omega
    have hindex : index (announce :: data) 0 = .ok announce := rfl
    rw [if_pos (by omega), if_pos hlong, hindex]
    dsimp only [bind, Except.bind]
    rw [slice_of_le (by omega) (by rw [List.length_cons]; omega), List.drop_one, List.tail_cons]
    dsimp only
    rw [try_into_eq hversion]
    rfl
  · rw [if_neg (by omega), if_neg hlong]

theorem hash_stop_at_eq (hsize : payload.length ≤ MAX_PAYLOAD_SIZE) (hpos : pos ≤ payload.length) :
    hash_stop_at payload pos = .ok (if (payload.drop pos).length ≥ 32 then
      Uint256.from_bytes ((payload.drop pos).take 32) else 0) := by
  have hbound : MAX_PAYLOAD_SIZE = 4000000 := rfl
  have hend : add pos 32 = .ok (pos + 32) := add_of_lt (by omega)
  rw [hash_stop_at, hend, List.length_drop]
  dsimp only [bind, Except.bind]
  by_cases hinside : pos + 32 ≤ payload.length
  · rw [if_pos hinside, if_pos (by omega), hash_between_eq rfl hinside]
  · rw [if_neg hinside, if_neg (by omega)]

theorem parse_locators_eq (hsize : payload.length ≤ MAX_PAYLOAD_SIZE) :
    parse_locators payload = .ok (connection.parse_locators payload) := by
  have hbound : MAX_PAYLOAD_SIZE = 4000000 := rfl
  unfold parse_locators connection.parse_locators
  by_cases hshort : payload.length < 4
  · rw [if_pos hshort, read_bytes, if_pos hshort]
    rfl
  · have hversion : (payload.take 4).length = 4 := by
      rw [List.length_take]
      omega
    have hrest : (payload.drop 4).length = payload.length - 4 := List.length_drop
    rw [if_neg hshort, read_bytes_of_le (Nat.not_lt.mp hshort), slice_of_le (Nat.zero_le 4) (Nat.not_lt.mp hshort),
      List.drop_zero]
    dsimp only [bind, Except.bind]
    rw [try_into_eq hversion]
    dsimp only [unwrap]
    rw [slice_length (Nat.not_lt.mp hshort), Option.bind_some]
    dsimp only
    obtain ⟨hnumber, hvalue⟩ | ⟨count, offset, hnumber, hvalue, hoffset, -⟩ := read_varint_spec (payload.drop 4)
    · rw [hnumber, hvalue]
      rfl
    · have hpos : 4 + offset ≤ payload.length := by omega
      have hadd : add 4 offset = .ok (4 + offset) := add_of_lt (by omega)
      obtain ⟨last, hlast, hentries, hdrop⟩ := @entries_eq_ok _ _ payload (4 + offset) 32 (locator_at payload)
        (fun bytes => some (Uint256.from_bytes bytes)) (by omega) (fun _ hstop => locator_at_eq hsize hstop) count hpos
      rw [hnumber, hvalue]
      dsimp only
      rw [hadd]
      dsimp only
      rw [hentries]
      dsimp only
      rw [hash_stop_at_eq hsize hlast, hdrop, Option.bind_some]
      dsimp only
      rw [List.drop_drop, read_entries_eq]
      rfl

theorem parse_filter_range_eq (payload : Bytes) :
    parse_filter_range payload = .ok (connection.parse_filter_range payload) := by
  cases payload with
  | nil => rfl
  | cons filter_type data =>
    unfold parse_filter_range connection.parse_filter_range
    rw [List.length_cons]
    by_cases hlong : data.length ≥ 36
    · have hheight : (data.take 4).length = 4 := by
        rw [List.length_take]
        omega
      have hindex : index (filter_type :: data) 0 = .ok filter_type := rfl
      have hhash : hash_between (filter_type :: data) 5 37 = .ok (Uint256.from_bytes ((data.drop 4).take 32)) :=
        hash_between_eq rfl (by rw [List.length_cons]; omega)
      rw [if_pos (by omega), hindex]
      dsimp only [bind, Except.bind]
      rw [slice_of_le (by omega) (by rw [List.length_cons]; omega), List.drop_one, List.tail_cons]
      dsimp only
      rw [try_into_eq hheight]
      dsimp only [unwrap]
      rw [hhash]
      dsimp only
      rw [if_pos hlong]
    · rw [if_neg (by omega)]
      dsimp only
      rw [if_neg hlong]

theorem parse_getcfcheckpt_cons (filter_type : UInt8) (data : Bytes) :
    parse_getcfcheckpt (filter_type :: data) =
      .ok (if data.length ≥ 32 then some (filter_type, Uint256.from_bytes (data.take 32)) else none) := by
  unfold parse_getcfcheckpt
  rw [List.length_cons]
  by_cases hlong : data.length ≥ 32
  · have hindex : index (filter_type :: data) 0 = .ok filter_type := rfl
    have hhash : hash_between (filter_type :: data) 1 33 = .ok (Uint256.from_bytes (data.take 32)) :=
      hash_between_eq rfl (by rw [List.length_cons]; omega)
    rw [if_pos (by omega), if_pos hlong, hindex]
    dsimp only [bind, Except.bind]
    rw [hhash]
  · rw [if_neg (by omega), if_neg hlong]

theorem parse_reason_eq (hsize : payload.length ≤ MAX_PAYLOAD_SIZE) (hpos : pos < payload.length) :
    parse_reason payload pos = .ok (match connection.read_varint (payload.drop (pos + 1)) with
      | some (reason_len, rest) => utf8.from_utf8_lossy (rest.take reason_len)
      | none => "") := by
  have hbound : MAX_PAYLOAD_SIZE = 4000000 := rfl
  have hafter : add pos 1 = .ok (pos + 1) := add_of_lt (by omega)
  rw [parse_reason, hafter]
  dsimp only [bind, Except.bind]
  by_cases hmore : pos + 1 < payload.length
  · have hrest : (payload.drop (pos + 1)).length = payload.length - (pos + 1) := List.length_drop
    rw [if_pos hmore, slice_length (Nat.le_of_lt hmore)]
    dsimp only
    obtain ⟨hnumber, hvalue⟩ | ⟨reason_len, r_offset, hnumber, hvalue, hoffset, hsmall⟩ :=
      read_varint_spec (payload.drop (pos + 1))
    · rw [hnumber, hvalue]
    · have hstart : add (pos + 1) r_offset = .ok (pos + 1 + r_offset) := add_of_lt (by omega)
      have hend : checked_add (pos + 1 + r_offset) reason_len = some (pos + 1 + r_offset + reason_len) :=
        checked_add_of_lt (by omega)
      rw [hnumber, hvalue]
      dsimp only
      rw [hstart]
      dsimp only
      rw [hend, Option.getD_some, slice_of_le (by omega) (by omega), List.drop_drop]
      have hsame : (payload.drop (pos + 1 + r_offset)).take
          (max (min (pos + 1 + r_offset + reason_len) payload.length) (pos + 1 + r_offset) - (pos + 1 + r_offset)) =
            (payload.drop (pos + 1 + r_offset)).take reason_len := by
        rw [List.take_eq_take_iff, List.length_drop]
        omega
      dsimp only
      rw [hsame]
  · rw [if_neg hmore, List.drop_of_length_le (Nat.not_lt.mp hmore)]
    rfl

theorem parse_reject_eq (hsize : payload.length ≤ MAX_PAYLOAD_SIZE) :
    parse_reject payload = .ok (connection.parse_reject payload) := by
  have hbound : MAX_PAYLOAD_SIZE = 4000000 := rfl
  unfold parse_reject connection.parse_reject
  obtain ⟨hnumber, hvalue⟩ | ⟨msg_len, msg_start, hnumber, hvalue, hstart, hsmall⟩ := read_varint_spec payload
  · rw [hnumber, hvalue]
    rfl
  · have hend : checked_add msg_start msg_len = some (msg_start + msg_len) := checked_add_of_lt (by omega)
    rw [hnumber, hvalue]
    dsimp only [bind, Except.bind]
    rw [hend, Option.getD_some, Option.bind_some]
    dsimp only
    rw [List.drop_drop]
    by_cases hinside : msg_start + msg_len < payload.length
    · rw [if_pos hinside, slice_of_le (by omega) (by omega), Nat.add_sub_cancel_left, List.drop_eq_getElem_cons hinside]
      dsimp only
      rw [index_of_lt hinside]
      dsimp only
      rewrite [parse_reason_eq hsize hinside]
      rfl
    · rw [if_neg hinside, List.drop_of_length_le (Nat.not_lt.mp hinside)]

/-- The parser of messages never reads outside the payload and no position overflows: on every
    payload that a peer can send it returns a message. -/
theorem parse_message_in_bounds (command : String) (payload : Bytes) (hsize : payload.length ≤ MAX_PAYLOAD_SIZE) :
    parse_message command payload = .ok (connection.parse_message command payload) := by
  have hbound : MAX_PAYLOAD_SIZE = 4000000 := rfl
  have hinv : parse_inv_list payload = .ok (connection.parse_inv_list payload) :=
    parse_list_eq (by omega) fun _ hstop => inv_at_eq hsize hstop
  have hheaders : parse_headers_payload payload = .ok (connection.parse_headers_payload payload) :=
    parse_list_eq (by omega) fun _ hstop => header_at_eq hsize hstop
  have haddr : parse_addr_list payload = .ok (connection.parse_addr_list payload) :=
    parse_list_eq (by omega) fun _ hstop => addr_at_eq hsize hstop
  unfold parse_message
  split
  case h_1 => rw [deserialize_version_run hsize]; rfl
  case h_3 | h_4 | h_12 => rw [parse_nonce_eq]; rfl
  case h_11 =>
    rw [parse_sendtxrcncl_eq, connection.parse_message]
    split <;> rfl
  case h_13 | h_14 | h_15 => rw [hinv]; rfl
  case h_18 => rw [hheaders]; rfl
  case h_19 =>
    cases payload with
    | nil => rfl
    | cons announce data =>
      rw [parse_sendcmpct_cons, connection.parse_message]
      dsimp only
      split <;> rfl
  case h_30 | h_31 => rw [parse_locators_eq hsize]; rfl
  case h_32 | h_33 => rw [parse_filter_range_eq]; rfl
  case h_34 =>
    cases payload with
    | nil => rfl
    | cons filter_type data =>
      rw [parse_getcfcheckpt_cons, connection.parse_message]
      dsimp only
      split <;> rfl
  case h_35 => rw [haddr]; rfl
  case h_36 => rw [parse_reject_eq hsize]; rfl
  case h_37 => exact congrArg Except.ok (parse_unknown (by simp_all [commands]) payload).symm
  all_goals rfl

/-- A rejection whose message would be longer than any payload, and addresses that are announced
    but not sent. -/
theorem parse_message_in_bounds_malformed :
    parse_message "reject" [0xff, 0xff, 0xff, 0xff, 0xff, 0xff, 0xff, 0xff, 0xff, 0x10, 0x11] =
        .ok (.Unknown "reject" [0xff, 0xff, 0xff, 0xff, 0xff, 0xff, 0xff, 0xff, 0xff, 0x10, 0x11]) ∧
      parse_message "addr" [0xfd, 0x00, 0x10, 0x01, 0x02] = .ok (.Addr []) :=
  ⟨(parse_message_in_bounds _ _ (by decide)).trans rfl, (parse_message_in_bounds _ _ (by decide)).trans rfl⟩

end qubitcoin.connection.indexed
