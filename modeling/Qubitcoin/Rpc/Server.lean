import Qubitcoin.Coins.Cache
import Qubitcoin.Lib.Base64
import Qubitcoin.Lib.Utf8

/-! `qubitcoin-rpc/http_server.rs` and `server.rs`: which requests are dispatched. A privileged
    method is one that is registered for administrators, or not at all. -/

open text qubitcoin.coins

namespace qubitcoin.rpc.server

variable {J : Type}

/-- A JSON-RPC request, over the JSON values. -/
structure RpcRequest (J : Type) where
  jsonrpc : Option String
  method : String
  params : Option J
  id : J
  deriving DecidableEq

structure RpcError (J : Type) where
  code : Int
  message : String
  data : Option J
  deriving DecidableEq

structure RpcResponse (J : Type) where
  jsonrpc : Option String
  result : Option J
  error : Option (RpcError J)
  id : J
  deriving DecidableEq

def RPC_PARSE_ERROR : Int := -32700

def RPC_INVALID_REQUEST : Int := -32600

def RPC_METHOD_NOT_FOUND : Int := -32601

def RpcResponse.failure (id : J) (code : Int) (message : String) : RpcResponse J :=
  ⟨some "2.0", none, some ⟨code, message, none⟩, id⟩

inductive AuthTier where
  | Public | Admin
  deriving DecidableEq, Repr

abbrev RpcHandler (J : Type) := RpcRequest J → RpcResponse J

structure RpcRegistry (J : Type) where
  methods : HashMap String (AuthTier × RpcHandler J)
  rpcwhitelist : Option (HashMap String (List String))

namespace RpcRegistry

variable (self : RpcRegistry J)

def auth_tier_for (method : String) : Option AuthTier := (self.methods.lookup method).map fun entry => entry.1

def dispatch (request : RpcRequest J) : RpcResponse J :=
  match self.methods.lookup request.method with
  | some (_, handler) => handler request
  | none => .failure request.id RPC_METHOD_NOT_FOUND ("Method not found: " ++ request.method)

def user_allowed (user method : String) : Bool :=
  match self.rpcwhitelist with
  | none => true
  | some whitelist =>
    match whitelist.lookup user with
    | none => false
    | some allowed => allowed.contains method

/-- A method that is not registered counts as one for administrators. -/
def tier (method : String) : AuthTier := (self.auth_tier_for method).getD .Admin

theorem tier_eq_admin {self : RpcRegistry J} {method : String} :
    self.tier method = .Admin ↔ self.auth_tier_for method ≠ some .Public := by
  unfold tier
  cases self.auth_tier_for method with
  | none => simp
  | some tier => cases tier <;> simp

end RpcRegistry

/-- `serde_json`: reading a request, or why it is none, and writing a response where that works. -/
structure Serde (J : Type) where
  null : J
  from_str : String → Except String (RpcRequest J)
  to_string : RpcResponse J → Option String

namespace Serde

variable (serde : Serde J)

/-- The request, or the response that says what is wrong with it. -/
def parse_rpc_request (raw : String) : Except String (RpcRequest J) :=
  match serde.from_str raw with
  | .error e =>
    .error ((serde.to_string (.failure serde.null RPC_PARSE_ERROR ("Parse error: " ++ e))).getD
      "\x7b\"jsonrpc\":\"2.0\",\"error\":\x7b\"code\":-32700,\"message\":\"Parse error\"\x7d,\"id\":null\x7d")
  | .ok request =>
    if request.method.isEmpty then
      .error ((serde.to_string (.failure request.id RPC_INVALID_REQUEST "Invalid request: method is empty")).getD "")
    else .ok request

end Serde

end qubitcoin.rpc.server

namespace qubitcoin.rpc.http_server

open qubitcoin.rpc.server

variable {J : Type}

def base64_decode (input : String) : Option String := utf8.ofBytes? (base64.decode (utf8.bytes input))

def base64_encode (input : String) : String :=
  String.ofList ((base64.encode (utf8.bytes input)).map fun byte => Char.ofNat byte.toNat)

def constant_time_eq (a b : List UInt8) : Bool :=
  if a.length ≠ b.length then false
  else ((a.zip b).foldl (fun diff (x, y) => diff ||| (x ^^^ y)) 0) == (0 : UInt8)

def parse_http_request (raw : List Char) : Option (List Char × List Char) :=
  match splitn "\r\n\r\n".toList 2 raw with
  | headers :: body :: _ => some (headers, body)
  | _ => none

def basic_scheme : List Char := "authorization: basic ".toList

section

variable (table : CaseTable)

/-- The first line with the scheme, in any case. -/
def basic_line (headers : List Char) : Option (List Char) :=
  (lines headers).find? fun line => basic_scheme.isPrefixOf (table.to_lowercase line)

/-- What is behind the scheme: `line[21..].trim()`. -/
def basic_value (line : List Char) : Except Panic (List Char) :=
  match slice_from 21 line with
  | some value => .ok (trim value)
  | none => .error .index_out_of_bounds

def check_auth (headers : List Char) (user pass : String) : Except Panic Bool :=
  match basic_line table headers with
  | some line => do
    let value ← basic_value line
    let expected := base64_encode (user ++ ":" ++ pass)
    .ok (constant_time_eq (utf8.bytes (String.ofList value)) (utf8.bytes expected))
  | none => .ok false

/-- The part of a text in front of its first colon. -/
def name_part (credentials : String) : String := String.ofList (credentials.toList.takeWhile fun c => c != ':')

def extract_auth_user (headers : List Char) : Except Panic (Option String) :=
  match basic_line table headers with
  | some line => do
    let b64 ← basic_value line
    .ok ((base64_decode (String.ofList b64)).map name_part)
  | none => .ok none

end

/-- The server with its configuration, but for the address it is bound to. -/
structure RpcServer (J : Type) where
  rpc_user : Option String
  rpc_password : Option String
  registry : RpcRegistry J

/-- What becomes of a request: an HTTP error, a JSON response without a call, or a call of the
    registry. -/
inductive Outcome (J : Type) where
  | refused (code : Nat) (body : String)
  | answered (result : String)
  | dispatched (request : RpcRequest J) (resp : RpcResponse J)
  deriving DecidableEq

def http_response (code : Nat) (body : String) : String :=
  let status :=
    match code with
    | 200 => "OK"
    | 400 => "Bad Request"
    | 401 => "Unauthorized"
    | 405 => "Method Not Allowed"
    | 500 => "Internal Server Error"
    | _ => "Unknown"
  "HTTP/1.1 " ++ toString code ++ " " ++ status ++ "\r\nContent-Type: text/plain\r\nContent-Length: " ++
    toString (utf8.bytes body).length ++ "\r\nConnection: close\r\n\r\n" ++ body

section

variable (serde : Serde J) (table : CaseTable)

def Outcome.written : Outcome J → String
  | .refused code body => http_response code body
  | .answered result => json_response result
  | .dispatched _ resp => json_response ((serde.to_string resp).getD "")
where
  json_response (result : String) : String :=
    "HTTP/1.1 200 OK\r\nContent-Type: application/json\r\nContent-Length: " ++ toString (utf8.bytes result).length ++
      "\r\nConnection: close\r\n\r\n" ++ result

namespace RpcServer

variable (self : RpcServer J)

/-- User and password, where both are configured. -/
def credentials : Option (String × String) :=
  match self.rpc_user, self.rpc_password with
  | some user, some pass => some (user, pass)
  | _, _ => none

/-- The HTTP error for a request without the rights that its method takes. -/
def refusal (headers : List Char) (request : RpcRequest J) : Except Panic (Option (Nat × String)) :=
  if self.registry.tier request.method = .Admin then
    match self.credentials with
    | none => .ok (some (401, "Unauthorized: this method requires authentication, but no rpcuser/rpcpassword is configured"))
    | some (user, pass) => do
      let authorized ← check_auth table headers user pass
      .ok (if authorized then none else some (401, "Unauthorized"))
  else .ok none

/-- The answer to a user whom the whitelist excludes. -/
def forbidden (request : RpcRequest J) : RpcResponse J :=
  .failure request.id 403 ("Method not allowed for user: " ++ request.method)

/-- The call, where a whitelist does not exclude the user whom the headers name. -/
def call (headers : List Char) (request : RpcRequest J) : Except Panic (Outcome J) :=
  let dispatched := Outcome.dispatched request (self.registry.dispatch request)
  if self.credentials.isSome then do
    match ← extract_auth_user table headers with
    | some user =>
      if !self.registry.user_allowed user request.method then
        .ok (.answered ((serde.to_string (forbidden request)).getD ""))
      else .ok dispatched
    | none => .ok dispatched
  else .ok dispatched

def serve (request_str : String) : Except Panic (Outcome J) :=
  match parse_http_request request_str.toList with
  | none => .ok (.refused 400 "Bad Request")
  | some (headers, body) =>
    if !"POST".toList.isPrefixOf headers then .ok (.refused 405 "Method Not Allowed")
    else
      match serde.parse_rpc_request (String.ofList body) with
      | .error err_json => .ok (.answered err_json)
      | .ok request => do
        match ← self.refusal table headers request with
        | some (code, body) => .ok (.refused code body)
        | none => self.call serde table headers request

end RpcServer

end

theorem constant_time_eq_iff {a b : List UInt8} : constant_time_eq a b = true ↔ a = b := by
  have hfold : ∀ (a b : List UInt8) (diff : UInt8), a.length = b.length →
      ((a.zip b).foldl (fun diff (x, y) => diff ||| (x ^^^ y)) diff = 0 ↔ diff = 0 ∧ a = b) := by
    intro a
    induction a with
    | nil =>
      intro b diff hlength
      rw [List.eq_nil_of_length_eq_zero hlength.symm]
      simp
    | cons x a ih =>
      intro b diff hlength
      cases b with
      | nil => cases hlength
      | cons y b =>
        rw [List.zip_cons_cons, List.foldl_cons, ih b _ (Nat.succ.inj hlength), UInt8.or_eq_zero_iff,
          UInt8.xor_eq_zero_iff, List.cons.injEq, and_assoc]
  unfold constant_time_eq
  split
  · next hlength => exact ⟨nofun, fun heq => absurd (congrArg List.length heq) hlength⟩
  · next hlength =>
    rw [beq_iff_eq, hfold a b 0 (not_not.mp hlength)]
    exact and_iff_right rfl

theorem base64_decode_encode (input : String) : base64_decode (base64_encode input) = some input := by
  rw [base64_decode, base64_encode, utf8.bytes_ascii (base64.encode_lt _), base64.decode_encode, utf8.ofBytes?_bytes]

theorem name_part_append (user pass : String) : name_part (user ++ ":" ++ pass) = name_part user := by
  have hlist : (user ++ ":" ++ pass).toList = user.toList ++ ':' :: pass.toList := by simp
  unfold name_part
  rw [hlist, List.takeWhile_append]
  split
  · next hall =>
    rw [List.takeWhile_cons_of_neg (by simp), List.append_nil]
    rw [(List.takeWhile_prefix _).eq_of_length hall]
  · rfl

section

variable (table : CaseTable)

/-- The first line with the scheme has the value. -/
def Carries (headers : List Char) (value : String) : Prop :=
  ∃ line, basic_line table headers = some line ∧ basic_value line = .ok value.toList

theorem basic_value_ok {table : CaseTable} {headers line : List Char} (hline : basic_line table headers = some line) :
    ∃ value, basic_value line = .ok value := by
  have hstarts : basic_scheme <+: table.to_lowercase line := by
    simpa using List.find?_some hline
  obtain ⟨rest, hrest⟩ := slice_from_of_lowercase_starts (by decide) hstarts
  refine ⟨trim rest, ?_⟩
  unfold basic_value
  rw [show (21 : Nat) = basic_scheme.length from rfl, hrest]

theorem check_auth_spec (headers : List Char) (user pass : String) :
    ∃ authorized, check_auth table headers user pass = .ok authorized ∧
      (authorized = true ↔ Carries table headers (base64_encode (user ++ ":" ++ pass))) := by
  unfold check_auth Carries
  cases hline : basic_line table headers with
  | none => exact ⟨false, rfl, nofun, nofun⟩
  | some line =>
    obtain ⟨value, hvalue⟩ := basic_value_ok hline
    dsimp only
    rw [hvalue]
    refine ⟨_, rfl, ?_⟩
    rw [constant_time_eq_iff, utf8.bytes_injective.eq_iff]
    constructor
    · intro heq
      exact ⟨line, rfl, by rw [hvalue, ← heq, String.toList_ofList]⟩
    · rintro ⟨_, ⟨⟩, hcarried⟩
      rw [hvalue, Except.ok.injEq] at hcarried
      rw [hcarried, String.ofList_toList]

theorem extract_auth_user_spec (headers : List Char) :
    ∃ found, extract_auth_user table headers = .ok found ∧
      ∀ user pass, Carries table headers (base64_encode (user ++ ":" ++ pass)) → found = some (name_part user) := by
  unfold extract_auth_user Carries
  cases hline : basic_line table headers with
  | none => exact ⟨none, rfl, nofun⟩
  | some line =>
    obtain ⟨value, hvalue⟩ := basic_value_ok hline
    dsimp only
    rw [hvalue]
    refine ⟨_, rfl, ?_⟩
    rintro user pass ⟨_, ⟨⟩, hcarried⟩
    rw [hvalue, Except.ok.injEq] at hcarried
    rw [hcarried, String.ofList_toList, base64_decode_encode, Option.map_some, name_part_append]

end

namespace RpcServer

section

variable (serde : Serde J) (table : CaseTable) (self : RpcServer J)

/-- The text is a POST request with the headers and the JSON-RPC request. -/
def Posts (request_str : String) (headers : List Char) (request : RpcRequest J) : Prop :=
  ∃ body, parse_http_request request_str.toList = some (headers, body) ∧ "POST".toList.isPrefixOf headers ∧
    serde.parse_rpc_request (String.ofList body) = .ok request

/-- The request comes back without a panic, and the call of a privileged method is one that the
    configured user has authorized and may make. -/
def Guarded (request_str : String) : Prop :=
  ∃ outcome, self.serve serde table request_str = .ok outcome ∧
    ∀ request resp, outcome = .dispatched request resp → self.registry.auth_tier_for request.method ≠ some .Public →
      ∃ user pass headers, self.credentials = some (user, pass) ∧ Posts serde request_str headers request ∧
        Carries table headers (base64_encode (user ++ ":" ++ pass)) ∧
        self.registry.user_allowed user request.method = true

/-- A request for a privileged method has the credentials of a user who may not make it, but a user
    with the name in front of the first colon may. -/
def Misnamed (request_str : String) : Prop :=
  ∃ user pass headers request, self.credentials = some (user, pass) ∧ Posts serde request_str headers request ∧
    self.registry.auth_tier_for request.method ≠ some .Public ∧
    Carries table headers (base64_encode (user ++ ":" ++ pass)) ∧
    self.registry.user_allowed (name_part user) request.method = true ∧
    self.registry.user_allowed user request.method = false

variable {serde table self}

theorem serve_of_posts {request_str : String} {headers : List Char} {request : RpcRequest J}
    (hposts : Posts serde request_str headers request) :
    self.serve serde table request_str = (do
      match ← self.refusal table headers request with
      | some (code, body) => .ok (.refused code body)
      | none => self.call serde table headers request) := by
  obtain ⟨body, hhttp, hpost, hparse⟩ := hposts
  unfold serve
  rw [hhttp]
  simp only [hpost, hparse, Bool.not_true, Bool.false_eq_true, if_false]

theorem serve_of_not_posts (table : CaseTable) (self : RpcServer J) {request_str : String} (hposts : ¬∃ headers request, Posts serde request_str headers request) :
    ∃ outcome, self.serve serde table request_str = .ok outcome ∧ ∀ request resp, outcome ≠ .dispatched request resp := by
  unfold serve
  split
  · exact ⟨_, rfl, nofun⟩
  · next headers body hhttp =>
    split
    · exact ⟨_, rfl, nofun⟩
    · next hpost =>
      split
      · exact ⟨_, rfl, nofun⟩
      · next request hparse => exact absurd ⟨headers, request, body, hhttp, by simpa using hpost, hparse⟩ hposts

theorem call_eq (serde : Serde J) (table : CaseTable) (self : RpcServer J) (headers : List Char) (request : RpcRequest J) :
    ∃ found, extract_auth_user table headers = .ok found ∧
      self.call serde table headers request = .ok (
        if self.credentials.isSome ∧ found.any fun user => !self.registry.user_allowed user request.method then
          .answered ((serde.to_string (forbidden request)).getD "")
        else .dispatched request (self.registry.dispatch request)) := by
  obtain ⟨found, hfound, _⟩ := extract_auth_user_spec table headers
  refine ⟨found, hfound, ?_⟩
  unfold call
  dsimp only
  rw [hfound]
  by_cases hcredentials : self.credentials.isSome = true
  · cases found with
    | none => simp [bind, Except.bind]
    | some user =>
      by_cases hallowed : self.registry.user_allowed user request.method = true
      · simp [bind, Except.bind, hallowed]
      · simp only [hcredentials, hallowed, bind, Except.bind, if_true, Bool.not_false, Option.any_some, and_self]
  · simp [hcredentials]

theorem serve_privileged (table : CaseTable) (self : RpcServer J) {request_str : String} {headers : List Char} {request : RpcRequest J}
    (hposts : Posts serde request_str headers request)
    (hprivileged : self.registry.auth_tier_for request.method ≠ some .Public) :
    ∃ outcome, self.serve serde table request_str = .ok outcome ∧
      ∀ called resp, outcome = .dispatched called resp ↔
        (called = request ∧ resp = self.registry.dispatch request) ∧
        ∃ user pass, self.credentials = some (user, pass) ∧
          Carries table headers (base64_encode (user ++ ":" ++ pass)) ∧
          self.registry.user_allowed (name_part user) request.method = true := by
  rw [serve_of_posts hposts, refusal, if_pos (RpcRegistry.tier_eq_admin.mpr hprivileged)]
  cases hcredentials : self.credentials with
  | none =>
    refine ⟨_, rfl, fun called resp => ⟨nofun, ?_⟩⟩
    rintro ⟨_, _, _, ⟨⟩, _⟩
  | some credentials =>
    obtain ⟨user, pass⟩ := credentials
    obtain ⟨authorized, hcheck, hauthorized⟩ := check_auth_spec table headers user pass
    dsimp only
    rw [hcheck]
    cases authorized with
    | false =>
      refine ⟨_, rfl, fun called resp => ⟨nofun, ?_⟩⟩
      rintro ⟨_, _, _, ⟨⟩, hcarries, _⟩
      cases hauthorized.mpr hcarries
    | true =>
      have hcarries := hauthorized.mp rfl
      obtain ⟨found, hfound, hcall⟩ := call_eq serde table self headers request
      obtain ⟨named, hnamed, hname⟩ := extract_auth_user_spec table headers
      obtain rfl : found = named := Except.ok.inj (hfound.symm.trans hnamed)
      refine ⟨_, hcall, fun called resp => ?_⟩
      rw [hcredentials, hname user pass hcarries]
      by_cases hallowed : self.registry.user_allowed (name_part user) request.method = true
      · rw [if_neg (by simp [hallowed]), Outcome.dispatched.injEq]
        constructor
        · rintro ⟨rfl, rfl⟩
          exact ⟨⟨rfl, rfl⟩, user, pass, rfl, hcarries, hallowed⟩
        · rintro ⟨⟨rfl, rfl⟩, _⟩
          exact ⟨rfl, rfl⟩
      · rw [if_pos (by simp [hallowed])]
        refine ⟨nofun, ?_⟩
        rintro ⟨_, _, _, ⟨⟩, _, hother⟩
        exact absurd hother hallowed

theorem serve_public (table : CaseTable) (self : RpcServer J) {request_str : String} {headers : List Char} {request : RpcRequest J}
    (hposts : Posts serde request_str headers request)
    (hpublic : self.registry.auth_tier_for request.method = some .Public) :
    ∃ outcome, self.serve serde table request_str = .ok outcome ∧
      ∀ called resp, outcome = .dispatched called resp → called = request := by
  have htier : self.registry.tier request.method ≠ .Admin := fun hadmin => RpcRegistry.tier_eq_admin.mp hadmin hpublic
  obtain ⟨found, _, hcall⟩ := call_eq serde table self headers request
  rw [serve_of_posts hposts, refusal, if_neg htier]
  refine ⟨_, hcall, fun called resp => ?_⟩
  split
  · exact nofun
  · rintro ⟨⟩
    rfl

theorem not_guarded_of_misnamed {request_str : String} (hmisnamed : self.Misnamed serde table request_str) :
    ¬self.Guarded serde table request_str := by
  rintro ⟨outcome, hserve, hguarded⟩
  obtain ⟨user, pass, headers, request, hcredentials, hposts, hprivileged, hcarries, hpart, hname⟩ := hmisnamed
  obtain ⟨_, hserve', hdispatched⟩ := serve_privileged table self hposts hprivileged
  rw [hserve, Except.ok.injEq] at hserve'
  subst hserve'
  have hcalled := (hdispatched request _).mpr ⟨⟨rfl, rfl⟩, user, pass, hcredentials, hcarries, hpart⟩
  obtain ⟨_, _, _, hconfigured, _, _, hallowed⟩ := hguarded _ _ hcalled hprivileged
  rw [hcredentials, Option.some.injEq, Prod.mk.injEq] at hconfigured
  rw [← hconfigured.1, hname] at hallowed
  cases hallowed

theorem guarded_of_not_misnamed {request_str : String} (hnamed : ¬self.Misnamed serde table request_str) :
    self.Guarded serde table request_str := by
  by_cases hread : ∃ headers request, Posts serde request_str headers request
  · obtain ⟨headers, request, hposts⟩ := hread
    by_cases hpublic : self.registry.auth_tier_for request.method = some .Public
    · obtain ⟨outcome, hserve, hdispatched⟩ := serve_public table self hposts hpublic
      refine ⟨outcome, hserve, fun called resp hcalled hprivileged => ?_⟩
      rw [hdispatched called resp hcalled] at hprivileged
      exact absurd hpublic hprivileged
    · obtain ⟨outcome, hserve, hdispatched⟩ := serve_privileged table self hposts hpublic
      refine ⟨outcome, hserve, fun called resp hcalled _ => ?_⟩
      obtain ⟨⟨rfl, _⟩, user, pass, hcredentials, hcarries, hpart⟩ := (hdispatched called resp).mp hcalled
      refine ⟨user, pass, headers, hcredentials, hposts, hcarries, ?_⟩
      by_contra hname
      exact hnamed ⟨user, pass, headers, called, hcredentials, hposts, hpublic, hcarries, hpart, by simpa using hname⟩
  · obtain ⟨outcome, hserve, hcalls⟩ := serve_of_not_posts table self hread
    exact ⟨outcome, hserve, fun request resp hcalled => absurd hcalled (hcalls request resp)⟩

/-- Privileged methods run for the configured user alone, and only if the whitelist has them, unless
    the part of the name in front of its first colon is the name of a user who may call them. -/
theorem guarded_iff (serde : Serde J) (table : CaseTable) (self : RpcServer J) (request_str : String) :
    self.Guarded serde table request_str ↔ ¬self.Misnamed serde table request_str :=
  ⟨fun hguarded hmisnamed => not_guarded_of_misnamed hmisnamed hguarded, guarded_of_not_misnamed⟩

/-- Numbers are the only JSON values, and one request is known. -/
def stop_serde : Serde (Option Nat) where
  null := none
  from_str raw :=
    if raw = "\x7b\"method\":\"stop\",\"id\":1\x7d" then .ok ⟨none, "stop", none, some 1⟩
    else .error "expected value at line 1 column 1"
  to_string resp := if resp = ⟨some "2.0", some (some 0), none, some 1⟩ then
    some "\x7b\"jsonrpc\":\"2.0\",\"result\":0,\"id\":1\x7d" else none

/-- The user `a` may stop the server, the configured user `a:b` is not listed. -/
def shared_name : RpcServer (Option Nat) where
  rpc_user := some "a:b"
  rpc_password := some "c"
  registry := {
    methods := AList.insert "stop" (.Admin, fun request => ⟨some "2.0", some (some 0), none, request.id⟩) ∅
    rpcwhitelist := some (AList.insert "a" ["stop"] ∅) }

/-- `a:b` has the method called that only `a` may call. -/
theorem shared_name_unguarded : ¬shared_name.Guarded stop_serde CaseTable.simple
    "POST / HTTP/1.1\r\nAuthorization: Basic YTpiOmM=\r\n\r\n\x7b\"method\":\"stop\",\"id\":1\x7d" := by
  refine not_guarded_of_misnamed ⟨"a:b", "c", "POST / HTTP/1.1\r\nAuthorization: Basic YTpiOmM=".toList,
    ⟨none, "stop", none, some 1⟩, rfl, ⟨"\x7b\"method\":\"stop\",\"id\":1\x7d".toList, ?_⟩, ?_,
    ⟨"Authorization: Basic YTpiOmM=".toList, ?_⟩, ?_⟩
  · decide +kernel
  · decide +kernel
  · decide +kernel
  · decide +kernel

end

end RpcServer

end qubitcoin.rpc.http_server
