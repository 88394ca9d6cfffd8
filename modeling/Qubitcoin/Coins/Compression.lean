import Qubitcoin.Coins.Cache
import Qubitcoin.Serialize
import Mathlib.Data.List.GetD
import Mathlib.Data.UInt

/-! `qubitcoin-common/coins.rs`: the compressed form of amounts, scripts and coins, and
    which coins it loses. -/

open qubitcoin primitives script transaction serialize codec

namespace qubitcoin.coins

/-- Take trailing zeros off, nine at most. -/
def strip_zeros : Nat → Nat → Nat → Nat × Nat
  | 0, n, e => (n, e)
  | fuel + 1, n, e => if n % 10 = 0 then strip_zeros fuel (n / 10) (e + 1) else (n, e)

/-- The short form of an amount. The code computes in `u64`, which holds the results
    for amounts up to `MAX_MONEY`. -/
def compress_amount (n : Nat) : Nat :=
  if n = 0 then 0
  else
    let (n, e) := strip_zeros 9 n 0
    if e < 9 then
      let d := n % 10
      1 + (n / 10 * 9 + d - 1) * 10 + e
    else 1 + (n - 1) * 10 + 9

def decompress_amount (x : Nat) : Nat :=
  if x = 0 then 0
  else
    let x := x - 1
    let e := x % 10
    let x := x / 10
    let n := if e < 9 then x / 9 * 10 + (x % 9 + 1) else x + 1
    n * 10 ^ e

theorem strip_zeros_spec {fuel : Nat} : ∀ {n e m k : Nat}, strip_zeros fuel n e = (m, k) →
    n * 10 ^ e = m * 10 ^ k ∧ e ≤ k ∧ k ≤ e + fuel ∧ (0 < n → 0 < m) ∧ (k < e + fuel → m % 10 ≠ 0) := by
  induction fuel with
  | zero =>
    intro n e m k hstrip
    cases hstrip
    exact ⟨rfl, le_rfl, le_rfl, id, fun hlt => absurd hlt (by omega)⟩
  | succ fuel ih =>
    intro n e m k hstrip
    unfold strip_zeros at hstrip
    split at hstrip
    · next hzero =>
      obtain ⟨hvalue, hlow, hhigh, hpos, hlast⟩ := ih hstrip
      refine ⟨?_, by omega, by omega, fun hn => hpos (by omega), fun hlt => hlast (by omega)⟩
      rw [← hvalue, Nat.pow_succ, Nat.mul_comm (10 ^ e) 10, ← Nat.mul_assoc, Nat.div_mul_cancel (Nat.dvd_of_mod_eq_zero hzero)]
    · next hne =>
      cases hstrip
      exact ⟨rfl, le_rfl, by omega, id, fun _ => hne⟩

theorem decompress_compress_amount (n : Nat) : decompress_amount (compress_amount n) = n := by
  unfold compress_amount
  split
  · next hzero =>
    rw [hzero]
    rfl
  · next hne =>
    cases hstrip : strip_zeros 9 n 0 with
    | mk m k =>
      obtain ⟨hvalue, _, hhigh, hpos, hlast⟩ := strip_zeros_spec hstrip
      have hm := hpos (by omega)
      rw [pow_zero, mul_one] at hvalue
      dsimp only
      split
      · next hlt =>
        have hdigit := hlast (by omega)
        have hcode : 1 + (m / 10 * 9 + m % 10 - 1) * 10 + k - 1 = (m / 10 * 9 + m % 10 - 1) * 10 + k := by omega
        unfold decompress_amount
        rw [if_neg (by omega), hcode]
        dsimp only
        have hexp : ((m / 10 * 9 + m % 10 - 1) * 10 + k) % 10 = k := by omega
        have hrest : ((m / 10 * 9 + m % 10 - 1) * 10 + k) / 10 = m / 10 * 9 + m % 10 - 1 := by omega
        rw [hexp, hrest, if_pos hlt, hvalue]
        congr 1
        omega
      · next hge =>
        have hk : k = 9 := by omega
        have hcode : 1 + (m - 1) * 10 + 9 - 1 = (m - 1) * 10 + 9 := by omega
        unfold decompress_amount
        rw [if_neg (by omega), hcode]
        dsimp only
        have hexp : ((m - 1) * 10 + 9) % 10 = 9 := by omega
        have hrest : ((m - 1) * 10 + 9) / 10 = m - 1 := by omega
        rw [hexp, hrest, if_neg (by omega), hvalue, hk]
        congr 1
        omega

theorem compress_amount_lt {n : Nat} (hle : n ≤ 2100000000000000) : compress_amount n < 2 ^ 64 := by
  unfold compress_amount
  split
  · norm_num
  · cases hstrip : strip_zeros 9 n 0 with
    | mk m k =>
      obtain ⟨hvalue, _, hhigh, _, _⟩ := strip_zeros_spec hstrip
      have hm : m ≤ n := by
        rw [pow_zero, mul_one] at hvalue
        rw [hvalue]
        exact Nat.le_mul_of_pos_right m (by positivity)
      dsimp only
      split <;> omega

namespace u64

/-- An operation of `u64` whose exact value is `x`. -/
def exact_u64 (x : Int) : Except Panic Nat := if IntType.u64.fits x then .ok x.toNat else .error (.overflow .u64)

/-- The code's own steps, each of them checked. The loop divides, so it does not overflow. -/
def compress_amount (n : Nat) : Except Panic Nat :=
  if n = 0 then .ok 0
  else
    let (n, e) := strip_zeros 9 n 0
    if e < 9 then do
      let d := n % 10
      if ¬ (1 ≤ d ∧ d ≤ 9) then .error (.assertion_failed "d >= 1 && d <= 9") else
      let n := n / 10
      let n ← exact_u64 (n * 9)
      let n ← exact_u64 (n + d)
      let n ← exact_u64 (n - 1)
      let n ← exact_u64 (n * 10)
      let n ← exact_u64 (1 + n)
      exact_u64 (n + e)
    else do
      let n ← exact_u64 (n - 1)
      let n ← exact_u64 (n * 10)
      let n ← exact_u64 (1 + n)
      exact_u64 (n + 9)

/-- `for _ in 0..e { n *= 10; }` -/
def times_ten : Nat → Nat → Except Panic Nat
  | 0, n => .ok n
  | e + 1, n => do
    let n ← exact_u64 (n * 10)
    times_ten e n

def decompress_amount (x : Nat) : Except Panic Nat :=
  if x = 0 then .ok 0
  else do
    let x ← exact_u64 (x - 1)
    let e := x % 10
    let x := x / 10
    let n ← if e < 9 then do
        let d ← exact_u64 (x % 9 + 1)
        let n ← exact_u64 (x / 9 * 10)
        exact_u64 (n + d)
      else exact_u64 (x + 1)
    times_ten e n

theorem exact_u64_eq {n : Nat} {x : Int} (hvalue : x = n) (hlt : n < 2 ^ 64) : exact_u64 x = .ok n := by
  have hfits : IntType.u64.fits x := ⟨by omega, by omega⟩
  rw [exact_u64, if_pos hfits, hvalue, Int.toNat_natCast]

theorem exact_u64_bind {A : Type} {n : Nat} {x : Int} {f : Nat → Except Panic A} (hvalue : x = n) (hlt : n < 2 ^ 64) :
    (exact_u64 x >>= f) = f n := by
  rw [exact_u64_eq hvalue hlt]
  rfl

theorem times_ten_eq {e : Nat} : ∀ {n : Nat}, n * 10 ^ e < 2 ^ 64 → times_ten e n = .ok (n * 10 ^ e) := by
  induction e with
  | zero => exact fun _ => congrArg Except.ok (Nat.mul_one _).symm
  | succ e ih =>
    intro n hlt
    have hpow : n * 10 ^ (e + 1) = n * 10 * 10 ^ e := by rw [Nat.pow_succ, Nat.mul_comm (10 ^ e), ← Nat.mul_assoc]
    have hstep : n * 10 ≤ n * 10 * 10 ^ e := Nat.le_mul_of_pos_right _ (by positivity)
    rw [hpow] at hlt ⊢
    rw [times_ten, exact_u64_bind (n := n * 10) (by push_cast; rfl) (hstep.trans_lt hlt)]
    exact ih hlt

theorem compress_amount_eq {n : Nat} (hle : n ≤ 2100000000000000) :
    compress_amount n = .ok (coins.compress_amount n) := by
  unfold compress_amount coins.compress_amount
  by_cases hzero : n = 0
  · rw [if_pos hzero, if_pos hzero]
  rw [if_neg hzero, if_neg hzero]
  cases hstrip : strip_zeros 9 n 0 with
  | mk m k =>
    obtain ⟨hvalue, _, _, hpos, hlast⟩ := strip_zeros_spec hstrip
    have hm : 0 < m := hpos (by omega)
    have hmn : m ≤ n := by
      rw [pow_zero, mul_one] at hvalue
      rw [hvalue]
      exact Nat.le_mul_of_pos_right m (by positivity)
    dsimp only
    by_cases hlt : k < 9
    · have hdigit : m % 10 ≠ 0 := hlast (by omega)
      rw [if_pos hlt, if_pos hlt, if_neg (by omega), exact_u64_bind (n := m / 10 * 9) (by push_cast; rfl) (by omega)]
      rw [exact_u64_bind (n := m / 10 * 9 + m % 10) (by push_cast; rfl) (by omega)]
      rw [exact_u64_bind (n := m / 10 * 9 + m % 10 - 1) (by omega) (by omega)]
      rw [exact_u64_bind (n := (m / 10 * 9 + m % 10 - 1) * 10) (by push_cast; rfl) (by omega)]
      rw [exact_u64_bind (n := 1 + (m / 10 * 9 + m % 10 - 1) * 10) (by push_cast; rfl) (by omega)]
      exact exact_u64_eq (by push_cast; rfl) (by omega)
    · rw [if_neg hlt, if_neg hlt, exact_u64_bind (n := m - 1) (by omega) (by omega)]
      rw [exact_u64_bind (n := (m - 1) * 10) (by push_cast; rfl) (by omega)]
      rw [exact_u64_bind (n := 1 + (m - 1) * 10) (by push_cast; rfl) (by omega)]
      exact exact_u64_eq (by push_cast; rfl) (by omega)

theorem decompress_amount_eq {x : Nat} (hx : x < 2 ^ 64) (hlt : coins.decompress_amount x < 2 ^ 64) :
    decompress_amount x = .ok (coins.decompress_amount x) := by
  unfold coins.decompress_amount at hlt ⊢
  unfold decompress_amount
  by_cases hzero : x = 0
  · rw [if_pos hzero, if_pos hzero]
  rw [if_neg hzero] at hlt
  rw [if_neg hzero, if_neg hzero, exact_u64_bind (n := x - 1) (by omega) (by omega)]
  dsimp only at hlt ⊢
  generalize x - 1 = y at hlt ⊢
  generalize y % 10 = e at hlt ⊢
  -- The mantissa is no larger than the amount.
  have hmantissa : ∀ n : Nat, n * 10 ^ e < 2 ^ 64 → n < 2 ^ 64 := fun n =>
    (Nat.le_mul_of_pos_right n (by positivity)).trans_lt
  by_cases hsmall : e < 9
  · rw [if_pos hsmall] at hlt
    have hn := hmantissa _ hlt
    rw [if_pos hsmall, if_pos hsmall, exact_u64_bind (n := y / 10 % 9 + 1) (by push_cast; rfl) (by omega)]
    rw [exact_u64_bind (n := y / 10 / 9 * 10) (by push_cast; rfl) (by omega)]
    rw [exact_u64_bind (n := y / 10 / 9 * 10 + (y / 10 % 9 + 1)) (by push_cast; rfl) hn]
    exact times_ten_eq hlt
  · rw [if_neg hsmall] at hlt
    rw [if_neg hsmall, if_neg hsmall, exact_u64_bind (n := y / 10 + 1) (by push_cast; rfl) (hmantissa _ hlt)]
    exact times_ten_eq hlt

/-- Amounts in range are compressed and decompressed without an overflow, and no two of them
    have the same short form. -/
theorem amounts_invertible {n : Nat} (hrange : (n : Int) ≤ MAX_MONEY) :
    ∃ code, compress_amount n = .ok code ∧ decompress_amount code = .ok n ∧
      ∀ m : Nat, (m : Int) ≤ MAX_MONEY → compress_amount m = .ok code → m = n := by
  have hmax : MAX_MONEY = 2100000000000000 := by norm_num [MAX_MONEY, COIN]
  rw [hmax] at hrange
  have hn : n ≤ 2100000000000000 := by exact_mod_cast hrange
  refine ⟨coins.compress_amount n, compress_amount_eq hn, ?_, ?_⟩
  · have hvalue := decompress_compress_amount n
    rw [decompress_amount_eq (compress_amount_lt hn) (by omega), hvalue]
  · intro m hm hcode
    rw [hmax] at hm
    rw [compress_amount_eq (by exact_mod_cast hm)] at hcode
    rw [← decompress_compress_amount m, Except.ok.inj hcode, decompress_compress_amount]

/-- A bitcoin is the digit one before eight zeros. -/
theorem amounts_invertible_coin :
    ∃ code, compress_amount 100000000 = .ok code ∧ decompress_amount code = .ok 100000000 ∧
      ∀ m : Nat, (m : Int) ≤ MAX_MONEY → compress_amount m = .ok code → m = 100000000 :=
  amounts_invertible (by decide)

end u64

def N_SPECIAL_SCRIPTS : Nat := 6

/-- The short form of a script that pays to a key hash, a script hash, or a key. -/
def compress_script (script : Script) : Option (List UInt8) :=
  let data := script.data
  if data.length = 25 ∧ data.take 3 = [0x76, 0xa9, 20] ∧ data.drop 23 = [0x88, 0xac] then
    some (0x00 :: (data.drop 3).take 20)
  else if data.length = 23 ∧ data.take 2 = [0xa9, 20] ∧ data.drop 22 = [0x87] then
    some (0x01 :: (data.drop 2).take 20)
  else if data.length = 35 ∧ data.take 1 = [33] ∧ data.drop 34 = [0xac] ∧
      (data.getD 1 0 = 0x02 ∨ data.getD 1 0 = 0x03) then
    some (data.getD 1 0 :: (data.drop 2).take 32)
  else if data.length = 67 ∧ data.take 2 = [65, 0x04] ∧ data.drop 66 = [0xac] then
    some ((0x04 ||| (data.getD 65 0 &&& 0x01)) :: (data.drop 2).take 32)
  else none

def get_special_script_size (n_size : Nat) : Nat :=
  match n_size with
  | 0 | 1 => 20
  | 2 | 3 | 4 | 5 => 32
  | _ => 0

/-- The library for points of the curve. The uncompressed form of a compressed key is the
    one point with the key's first coordinate and parity, if there is one. -/
structure Secp256k1 where
  decompress : List UInt8 → Option (List UInt8)
  OnCurve : List UInt8 → List UInt8 → Prop
  decompress_eq_some : ∀ (tag : UInt8) (x key : List UInt8), x.length = 32 →
    (decompress (tag :: x) = some key ↔
      ∃ y, y.length = 32 ∧ OnCurve x y ∧ tag = 0x02 ||| (y.getD 31 0 &&& 0x01) ∧ key = 0x04 :: (x ++ y))

variable (curve : Secp256k1)

def decompress_script (n_size : Nat) (data : List UInt8) : Option Script :=
  match n_size with
  | 0 => some ⟨[0x76, 0xa9, 20] ++ data ++ [0x88, 0xac]⟩
  | 1 => some ⟨[0xa9, 20] ++ data ++ [0x87]⟩
  | 2 | 3 => some ⟨[33, UInt8.ofNat n_size] ++ data ++ [0xac]⟩
  | 4 | 5 => (curve.decompress (UInt8.ofNat (n_size - 2) :: data)).map fun uncompressed => ⟨[65] ++ uncompressed ++ [0xac]⟩
  | _ => none

/-- The `u32` sum wraps, as in a build without overflow checks. A script that long is not spendable. -/
def write_compressed_script (script : Script) : List UInt8 :=
  match compress_script script with
  | some compressed => compressed
  | none => write_varint ((script.len + N_SPECIAL_SCRIPTS) % 2 ^ 32) ++ script.data

/-- A key that is not on the curve and an overlong script come back as `OP_RETURN`. -/
def read_compressed_script : Decoder Script := do
  let n_size ← read_varint
  let n_size := n_size % 2 ^ 32
  if n_size < N_SPECIAL_SCRIPTS then do
    let data ← read_exact (get_special_script_size n_size)
    pure ((decompress_script curve n_size data).getD ⟨[0x6a]⟩)
  else do
    let data ← read_exact (n_size - N_SPECIAL_SCRIPTS)
    pure (if 10000 < n_size - N_SPECIAL_SCRIPTS then ⟨[0x6a]⟩ else ⟨data⟩)

/-- The stored form of a coin: height and kind, amount, script. -/
def Coin.encode (self : Coin) : Except Panic (List UInt8) :=
  if self.is_spent then .error (.assertion_failed "Cannot serialize a spent coin")
  else
    let code := (self.height <<< 1) ||| (if self.coinbase then 1 else 0)
    .ok (write_varint code.toNat ++ write_varint (compress_amount (self.tx_out.value % 2 ^ 64).toNat) ++
      write_compressed_script self.tx_out.script_pubkey)

def Coin.decode : Decoder Coin := do
  let code ← read_varint
  let code := UInt32.ofNat code
  let compressed_amount ← read_varint
  let script ← read_compressed_script curve
  pure { tx_out := ⟨as_i64 (decompress_amount compressed_amount), script⟩, height := code >>> 1
         coinbase := code &&& 1 != 0 }

/-- A script that is an uncompressed key and a check of its signature. -/
def PaysToUncompressedKey (script : Script) : Prop :=
  script.data.length = 67 ∧ script.data.take 2 = [65, 0x04] ∧ script.data.drop 66 = [0xac]

def KeyOnCurve (script : Script) : Prop :=
  PaysToUncompressedKey script → curve.OnCurve ((script.data.drop 2).take 32) ((script.data.drop 34).take 32)

theorem eq_take_append_append (data : List UInt8) (low count : Nat) :
    data = data.take low ++ (data.drop low).take count ++ data.drop (low + count) := by
  rw [List.append_assoc, ← List.drop_drop, List.take_append_drop, List.take_append_drop]

theorem read_varint_small {b : UInt8} (hlt : b < 128) (rest : List UInt8) :
    read_varint.run (b :: rest) = .ok (b.toNat, rest) := by
  have hall : ∀ k : Fin 128, (UInt8.ofNat k.val) &&& 0x80 = 0 := by decide
  have hnat : b.toNat < 128 := hlt
  have hflag : b &&& 0x80 = 0 := by
    have := hall ⟨b.toNat, hnat⟩
    rwa [UInt8.ofNat_toNat] at this
  change read_varint_loop 0 (b :: rest) = .ok (b.toNat, rest)
  simp only [read_varint_loop]
  rw [hflag, if_neg (by omega), if_neg (by simp), Nat.zero_mul, Nat.zero_add, Nat.mod_eq_of_lt hnat]

theorem read_special {tag : UInt8} (htag : tag < 6) {data : List UInt8}
    (hlength : data.length = get_special_script_size tag.toNat) (rest : List UInt8) :
    (read_compressed_script curve).run (tag :: data ++ rest) =
      .ok ((decompress_script curve tag.toNat data).getD ⟨[0x6a]⟩, rest) := by
  have hnat : tag.toNat < 6 := htag
  have hspecial : tag.toNat < N_SPECIAL_SCRIPTS := htag
  have hmod : tag.toNat % 2 ^ 32 = tag.toNat := Nat.mod_eq_of_lt (by omega)
  have hsmall : tag < 128 := by
    change tag.toNat < 128
    omega
  unfold read_compressed_script
  rw [run_bind_eq_ok]
  refine ⟨tag.toNat, data ++ rest, read_varint_small hsmall _, ?_⟩
  dsimp only
  rw [hmod, if_pos hspecial, run_bind_eq_ok]
  exact ⟨data, rest, (exact_read_exact _ _).run_eq_ok.mpr ⟨hlength, rfl⟩, run_pure_eq_ok.mpr ⟨rfl, rfl⟩⟩

theorem read_verbatim {script : Script} (hle : script.data.length ≤ 10000) (rest : List UInt8) :
    (read_compressed_script curve).run
        (write_varint ((script.len + N_SPECIAL_SCRIPTS) % 2 ^ 32) ++ script.data ++ rest) = .ok (script, rest) := by
  have hsize : (script.len + N_SPECIAL_SCRIPTS) % 2 ^ 32 = script.data.length + 6 := by
    unfold Script.len N_SPECIAL_SCRIPTS
    omega
  have hmod : (script.data.length + 6) % 2 ^ 32 = script.data.length + 6 := by omega
  have hsub : script.data.length + 6 - N_SPECIAL_SCRIPTS = script.data.length := by
    unfold N_SPECIAL_SCRIPTS
    omega
  unfold read_compressed_script
  rw [hsize, List.append_assoc, run_bind_eq_ok]
  refine ⟨script.data.length + 6, script.data ++ rest, read_write_varint (by omega) _, ?_⟩
  dsimp only
  rw [hmod, if_neg (by unfold N_SPECIAL_SCRIPTS; omega), run_bind_eq_ok, hsub]
  refine ⟨script.data, rest, (exact_read_exact _ _).run_eq_ok.mpr ⟨rfl, rfl⟩, run_pure_eq_ok.mpr ⟨?_, rfl⟩⟩
  rw [if_neg (by omega)]

theorem key_not_uncompressed {script : Script} (hlength : script.data.length ≠ 67) : KeyOnCurve curve script :=
  fun hpays => absurd hpays.1 hlength

theorem parity_tags (b : UInt8) : (0x04 ||| (b &&& 0x01)) < 6 ∧ ((0x04 ||| (b &&& 0x01)).toNat = 4 ∨
    (0x04 ||| (b &&& 0x01)).toNat = 5) ∧ UInt8.ofNat ((0x04 ||| (b &&& 0x01)).toNat - 2) = 0x02 ||| (b &&& 0x01) := by
  have hbit : b &&& 0x01 = 0 ∨ b &&& 0x01 = 1 := by
    have hlt : (b &&& 0x01).toNat < 2 := by
      rw [UInt8.toNat_and]
      change b.toNat &&& 1 < 2
      rw [Nat.and_one_is_mod]
      omega
    have hcases : (b &&& 0x01).toNat = 0 ∨ (b &&& 0x01).toNat = 1 := by omega
    exact hcases.imp (fun h => UInt8.toNat_inj.mp h) fun h => UInt8.toNat_inj.mp h
  obtain hbit | hbit := hbit <;> rw [hbit] <;> decide

theorem decompress_script_key {n_size : Nat} (htag : n_size = 4 ∨ n_size = 5) (data : List UInt8) :
    decompress_script curve n_size data =
      (curve.decompress (UInt8.ofNat (n_size - 2) :: data)).map fun uncompressed => ⟨[65] ++ uncompressed ++ [0xac]⟩ := by
  obtain rfl | rfl := htag <;> rfl

theorem decompress_script_restores {tag : UInt8} {x y : List UInt8} (hx : x.length = 32) (hy : y.length = 32)
    (htag : tag = 0x04 ||| (y.getD 31 0 &&& 0x01)) :
    (decompress_script curve tag.toNat x).getD ⟨[0x6a]⟩ = ⟨[65, 0x04] ++ (x ++ y) ++ [0xac]⟩ ↔ curve.OnCurve x y := by
  obtain ⟨_, hcases, hkey⟩ := parity_tags (y.getD 31 0)
  rw [← htag] at hcases hkey
  rw [decompress_script_key curve hcases, hkey]
  constructor
  · intro hsame
    cases hpoint : curve.decompress ((0x02 ||| (y.getD 31 0 &&& 0x01)) :: x) with
    | none =>
      rw [hpoint] at hsame
      have hlengths := congrArg (fun script : Script => script.data.length) hsame
      simp [hx, hy] at hlengths
    | some key =>
      obtain ⟨y', hy', hon, _, rfl⟩ := (curve.decompress_eq_some _ x key hx).mp hpoint
      rw [hpoint] at hsame
      have hdata : [65] ++ (0x04 :: (x ++ y')) ++ [0xac] = [65, 0x04] ++ (x ++ y) ++ [0xac] := congrArg Script.data hsame
      have hcoordinates : x ++ y' = x ++ y := by simpa using hdata
      rwa [List.append_cancel_left hcoordinates] at hon
  · intro hon
    rw [(curve.decompress_eq_some _ x _ hx).mpr ⟨y, hy, hon, rfl, rfl⟩]
    rfl

theorem read_write_compressed_script {script : Script} (hspendable : script.is_unspendable = false)
    (rest : List UInt8) :
    (read_compressed_script curve).run (write_compressed_script script ++ rest) = .ok (script, rest) ↔
      KeyOnCurve curve script := by
  obtain ⟨data⟩ := script
  have hshort : data.length ≤ 10000 :=
    Nat.le_of_not_lt (of_decide_eq_false (Bool.or_eq_false_iff.mp hspendable).2)
  unfold write_compressed_script compress_script
  dsimp only
  split_ifs with hhash hscript hkey huncompressed
  · obtain ⟨hlength, hhead, hlast⟩ := hhash
    have hwhole := eq_take_append_append data 3 20
    rw [hhead, hlast] at hwhole
    dsimp only
    rw [read_special curve (by decide) (by simp [hlength, get_special_script_size])]
    refine iff_of_true ?_ (key_not_uncompressed curve (by dsimp only; omega))
    rw [show decompress_script curve (UInt8.toNat 0) _ = some ⟨data⟩ from congrArg some (congrArg Script.mk hwhole.symm)]
    rfl
  · obtain ⟨hlength, hhead, hlast⟩ := hscript
    have hwhole := eq_take_append_append data 2 20
    rw [hhead, hlast] at hwhole
    dsimp only
    rw [read_special curve (by decide) (by simp [hlength, get_special_script_size])]
    refine iff_of_true ?_ (key_not_uncompressed curve (by dsimp only; omega))
    rw [show decompress_script curve (UInt8.toNat 1) _ = some ⟨data⟩ from congrArg some (congrArg Script.mk hwhole.symm)]
    rfl
  · obtain ⟨hlength, hhead, hlast, htag⟩ := hkey
    have hwhole := eq_take_append_append data 1 33
    have hsplit : (data.drop 1).take 33 = data.getD 1 0 :: (data.drop 2).take 32 := by
      rw [List.drop_eq_getElem_cons (by omega), List.getD_eq_getElem _ _ (by omega)]
      rfl
    rw [hhead, hlast, hsplit] at hwhole
    have hcompressed : ((data.drop 2).take 32).length = 32 := by
      rw [List.length_take, List.length_drop]
      omega
    dsimp only
    generalize data.getD 1 0 = tag at htag hwhole ⊢
    generalize (data.drop 2).take 32 = x at hwhole hcompressed ⊢
    refine iff_of_true ?_ (key_not_uncompressed curve (by dsimp only; omega))
    obtain rfl | rfl := htag
    all_goals
      rw [read_special curve (by decide) (by rw [hcompressed]; rfl), hwhole]
      rfl
  · obtain ⟨hlength, hhead, hlast⟩ := huncompressed
    have hwhole := eq_take_append_append data 2 64
    have hsplit : (data.drop 2).take 64 = (data.drop 2).take 32 ++ (data.drop 34).take 32 := by
      rw [show 64 = 32 + 32 from rfl, List.take_add, List.drop_drop]
    have hx : ((data.drop 2).take 32).length = 32 := by
      rw [List.length_take, List.length_drop]
      omega
    have hy : ((data.drop 34).take 32).length = 32 := by
      rw [List.length_take, List.length_drop]
      omega
    have hparity : data.getD 65 0 = ((data.drop 34).take 32).getD 31 0 := by
      rw [List.getD_eq_getElem _ _ (by omega), List.getD_eq_getElem _ _ (by omega), List.getElem_take, List.getElem_drop]
    have hpays : PaysToUncompressedKey ⟨data⟩ := ⟨hlength, hhead, hlast⟩
    rw [hhead, hlast, hsplit] at hwhole
    have hkey : KeyOnCurve curve ⟨data⟩ ↔ curve.OnCurve ((data.drop 2).take 32) ((data.drop 34).take 32) :=
      ⟨fun hon => hon hpays, fun hon _ => hon⟩
    rw [hkey, hparity]
    generalize (data.drop 2).take 32 = x at hwhole hx ⊢
    generalize (data.drop 34).take 32 = y at hwhole hy ⊢
    dsimp only
    obtain ⟨hspecial, hcases, _⟩ := parity_tags (y.getD 31 0)
    have hsize : x.length = get_special_script_size (0x04 ||| (y.getD 31 0 &&& 0x01)).toNat := by
      obtain htag | htag := hcases <;> rw [hx, htag] <;> rfl
    rw [read_special curve hspecial hsize, ← decompress_script_restores curve hx hy rfl, hwhole]
    constructor
    · intro hread
      exact congrArg Prod.fst (Except.ok.inj hread)
    · intro hsame
      rw [hsame]
  · dsimp only
    rw [read_verbatim curve hshort]
    exact iff_of_true rfl fun hpays => absurd hpays huncompressed

theorem code_toNat {height : UInt32} (hlt : height < 2 ^ 31) (coinbase : Bool) :
    ((height <<< 1) ||| (if coinbase then 1 else 0)).toNat = 2 * height.toNat + coinbase.toNat := by
  have hnat : height.toNat < 2 ^ 31 := hlt
  have hshift : (height <<< 1).toNat = 2 * height.toNat := by
    rw [UInt32.toNat_shiftLeft]
    change height.toNat <<< 1 % 2 ^ 32 = _
    rw [Nat.shiftLeft_eq]
    omega
  rw [UInt32.toNat_or, hshift]
  cases coinbase with
  | false => exact Nat.or_zero _
  | true => exact (Nat.two_pow_add_eq_or_of_lt (show 1 < 2 ^ 1 by norm_num) height.toNat).symm

theorem read_code {height : UInt32} (hlt : height < 2 ^ 31) (coinbase : Bool) :
    ((height <<< 1) ||| (if coinbase then 1 else 0)) >>> 1 = height ∧
      (((height <<< 1) ||| (if coinbase then 1 else 0)) &&& 1 != 0) = coinbase := by
  have hcode := code_toNat hlt coinbase
  generalize (height <<< 1) ||| (if coinbase then 1 else 0) = code at hcode ⊢
  have hbit : coinbase.toNat < 2 := Bool.toNat_lt coinbase
  constructor
  · apply UInt32.toNat_inj.mp
    rw [UInt32.toNat_shiftRight]
    change code.toNat >>> 1 = height.toNat
    rw [Nat.shiftRight_eq_div_pow, hcode]
    omega
  · have hlow : (code &&& 1).toNat = coinbase.toNat := by
      rw [UInt32.toNat_and]
      change code.toNat &&& 1 = coinbase.toNat
      rw [Nat.and_one_is_mod, hcode]
      omega
    cases coinbase with
    | false =>
      rw [UInt32.toNat_inj.mp (show _ = (0 : UInt32).toNat from hlow)]
      rfl
    | true =>
      rw [UInt32.toNat_inj.mp (show _ = (1 : UInt32).toNat from hlow)]
      rfl

theorem as_i64_decompress_compress {value : Int} (hnonneg : 0 ≤ value) (hle : value ≤ MAX_MONEY) :
    as_i64 (decompress_amount (compress_amount (value % 2 ^ 64).toNat)) = value := by
  have hmax : value ≤ 2100000000000000 := hle
  rw [decompress_compress_amount, as_i64, BitVec.toInt_eq_toNat_bmod, BitVec.toNat_ofNat, Int.bmod_def]
  omega

theorem compress_amount_in_range {value : Int} (hnonneg : 0 ≤ value) (hle : value ≤ MAX_MONEY) :
    compress_amount (value % 2 ^ 64).toNat < 2 ^ 64 := by
  have hmax : value ≤ 2100000000000000 := hle
  apply compress_amount_lt
  omega

theorem Coin.decode_encode_iff {coin : Coin} (hnonneg : 0 ≤ coin.tx_out.value) (hle : coin.tx_out.value ≤ MAX_MONEY)
    (hheight : coin.height < 2 ^ 31) (rest : List UInt8) :
    (∃ bytes, coin.encode = .ok bytes ∧ (Coin.decode curve).run (bytes ++ rest) = .ok (coin, rest)) ↔
      (read_compressed_script curve).run (write_compressed_script coin.tx_out.script_pubkey ++ rest) =
        .ok (coin.tx_out.script_pubkey, rest) := by
  obtain ⟨⟨value, script⟩, height, coinbase⟩ := coin
  dsimp only at hnonneg hle hheight ⊢
  have hunspent : (Coin.mk ⟨value, script⟩ height coinbase).is_spent = false := by
    have hne : (value : Int) ≠ -1 := fun hnull => absurd (hnull ▸ hnonneg) (by decide)
    exact beq_false_of_ne hne
  obtain ⟨hheight_back, hkind⟩ := read_code hheight coinbase
  have hamount := as_i64_decompress_compress hnonneg hle
  have hcode : ((height <<< 1) ||| (if coinbase then 1 else 0)).toNat < 2 ^ 64 := by
    have := UInt32.toNat_lt ((height <<< 1) ||| (if coinbase then 1 else 0))
    omega
  have hshort := compress_amount_in_range hnonneg hle
  unfold Coin.encode
  rw [hunspent, if_neg (by decide)]
  dsimp only
  -- the two numbers in front of the script are read whatever the script is
  have hfront : ∀ {coin : Coin} {tail : List UInt8}, (Coin.decode curve).run
      (write_varint ((height <<< 1) ||| (if coinbase then 1 else 0)).toNat ++
        write_varint (compress_amount (value % 2 ^ 64).toNat) ++ write_compressed_script script ++ rest) =
          .ok (coin, tail) ↔
      ∃ back, (read_compressed_script curve).run (write_compressed_script script ++ rest) = .ok (back, tail) ∧
        (⟨⟨value, back⟩, height, coinbase⟩ : Coin) = coin := by
    intro coin tail
    unfold Coin.decode
    rw [List.append_assoc, List.append_assoc, run_bind_of_ok (read_write_varint hcode _),
      run_bind_of_ok (read_write_varint hshort _), run_bind_eq_ok]
    constructor
    · rintro ⟨back, mid, hback, hcoin⟩
      obtain ⟨rfl, rfl⟩ := run_pure_eq_ok.mp hcoin
      refine ⟨back, hback, ?_⟩
      rw [UInt32.ofNat_toNat, hheight_back, hkind, hamount]
    · rintro ⟨back, hback, rfl⟩
      refine ⟨back, tail, hback, run_pure_eq_ok.mpr ⟨?_, rfl⟩⟩
      rw [UInt32.ofNat_toNat, hheight_back, hkind, hamount]
  constructor
  · rintro ⟨bytes, hbytes, hread⟩
    cases hbytes
    obtain ⟨back, hback, hcoin⟩ := hfront.mp hread
    cases hcoin
    exact hback
  · intro hread
    exact ⟨_, rfl, hfront.mpr ⟨script, hread, rfl⟩⟩

/-- A coin with a value in range and a spendable script is read back from its stored
    form exactly if it does not hold an uncompressed key off the curve. -/
theorem coin_read_back_iff {coin : Coin} (hnonneg : 0 ≤ coin.tx_out.value) (hle : coin.tx_out.value ≤ MAX_MONEY)
    (hheight : coin.height < 2 ^ 31) (hspendable : coin.tx_out.script_pubkey.is_unspendable = false)
    (rest : List UInt8) :
    (∃ bytes, coin.encode = .ok bytes ∧ (Coin.decode curve).run (bytes ++ rest) = .ok (coin, rest)) ↔
      KeyOnCurve curve coin.tx_out.script_pubkey := by
  rw [Coin.decode_encode_iff curve hnonneg hle hheight, read_write_compressed_script curve hspendable]

/-- The coordinates of the curve's generator. -/
def generator_x : List UInt8 :=
  [0x79, 0xbe, 0x66, 0x7e, 0xf9, 0xdc, 0xbb, 0xac, 0x55, 0xa0, 0x62, 0x95, 0xce, 0x87, 0x0b, 0x07,
   0x02, 0x9b, 0xfc, 0xdb, 0x2d, 0xce, 0x28, 0xd9, 0x59, 0xf2, 0x81, 0x5b, 0x16, 0xf8, 0x17, 0x98]

def generator_y : List UInt8 :=
  [0x48, 0x3a, 0xda, 0x77, 0x26, 0xa3, 0xc4, 0x65, 0x5d, 0xa4, 0xfb, 0xfc, 0x0e, 0x11, 0x08, 0xa8,
   0xfd, 0x17, 0xb4, 0x48, 0xa6, 0x85, 0x54, 0x19, 0x9c, 0x47, 0xd0, 0x8f, 0xfb, 0x10, 0xd4, 0xb8]

def generator_curve : Secp256k1 where
  decompress key := if key = 0x02 :: generator_x then some (0x04 :: (generator_x ++ generator_y)) else none
  OnCurve x y := x = generator_x ∧ y = generator_y
  decompress_eq_some tag x key hx := by
    constructor
    · intro hkey
      split at hkey
      · next hsame =>
        obtain ⟨rfl, rfl⟩ := List.cons.inj hsame
        cases hkey
        exact ⟨generator_y, rfl, ⟨rfl, rfl⟩, by decide, rfl⟩
      · cases hkey
    · rintro ⟨y, _, ⟨rfl, rfl⟩, rfl, rfl⟩
      rfl

/-- A coin that pays to the key with the given coordinates. -/
def coin_of_key (x y : List UInt8) : Coin :=
  { tx_out := ⟨5000000000, ⟨[65, 0x04] ++ (x ++ y) ++ [0xac]⟩⟩, height := 1, coinbase := true }

theorem coin_read_back_generator :
    KeyOnCurve generator_curve (coin_of_key generator_x generator_y).tx_out.script_pubkey ∧
      ∃ bytes, (coin_of_key generator_x generator_y).encode = .ok bytes ∧
        (Coin.decode generator_curve).run (bytes ++ [7]) = .ok (coin_of_key generator_x generator_y, [7]) := by
  have hkey : KeyOnCurve generator_curve (coin_of_key generator_x generator_y).tx_out.script_pubkey :=
    fun _ => ⟨rfl, rfl⟩
  exact ⟨hkey, (coin_read_back_iff generator_curve (by decide) (by decide) (by decide) (by decide) [7]).mpr hkey⟩

/-- The other coordinate of the key is lost when it is not the generator's. -/
theorem coin_of_key_off_curve_lost :
    (coin_of_key generator_x generator_x).tx_out.script_pubkey.is_unspendable = false ∧
      ¬ ∃ bytes, (coin_of_key generator_x generator_x).encode = .ok bytes ∧
        (Coin.decode generator_curve).run (bytes ++ []) = .ok (coin_of_key generator_x generator_x, []) := by
  refine ⟨by decide, fun hread => ?_⟩
  rw [Coin.decode_encode_iff generator_curve (by decide) (by decide) (by decide),
    read_write_compressed_script generator_curve (by decide)] at hread
  have hon := hread ⟨by decide, by decide, by decide⟩
  exact absurd hon.2 (by decide)

end qubitcoin.coins
