import StorageEngine.ControlPlane.Accounts
import StorageEngine.ControlPlane.Rpc

/-!
# The client's login

`login` gets a token from the master and keeps it in `config.json`; another process of the client reads it from there and
sends it along. The file may hold anything: what a failed parse leaves of it and how the library writes a float are
parameters. Main theorem `login_lasts`: after a login that was reported as successful and saved, every process that starts
from that file is taken for the account of the login for a day.

| here | there |
| --- | --- |
| `readLogin`             | `MasterHttpClient::Login` (`:37-62`) |
| `assign`                | `config_json["auth_token"] = token`, which throws where the value is neither `null` nor an object |
| `readConfig`, `saveAuthToken`, `loadAuthToken` | `LocalStateManager.cpp:139-194` |
| `startClient`, `login`  | `DSEClient.cpp:23-58` |
-/

namespace StorageEngine

open Transition Reading
open Json (FloatText Tree)

/-! ## The configuration -/

/-- `>>` reads the value at the front of the file. `torn` is what it leaves in `config_json` where it throws. -/
def readConfig (torn : Bytes → Tree) : Option Bytes → Tree
  | none => .null
  | some text => ((Json.parseFront text).map Prod.fst).getD (torn text)

/-- `none` is a `type_error`. -/
def assign (key : String) (v : Tree) : Tree → Option Tree
  | .obj members => some (.obj (members.filter (fun m => m.1 != key) ++ [(key, v)]))
  | .null => some (.obj [(key, v)])
  | _ => none

/-- The file after the call; a file that cannot be opened for writing stays as it is. -/
def saveAuthToken (print : FloatText) (torn : Bytes → Tree) (writable : Bool) (file : Option Bytes) (token : String) :
    Option (Option Bytes) :=
  (assign "auth_token" (.str token) (readConfig torn file)).map fun json =>
    if writable then some (Json.write print (some 4) 0 json) else file

def loadAuthToken : Option Bytes → String
  | none => ""
  | some text => ((Json.parseFront text).bind fun e => (e.1.at? "auth_token").bind Tree.getString).getD ""

/-! ## The client -/

/-- A client process: the token in its `MasterHttpClient`, and its directory. -/
structure LoginState where
  authToken : String
  /-- `config.json`; `none` where there is no such file. -/
  config : Option Bytes

def startClient (config : Option Bytes) : LoginState := ⟨loadAuthToken config, config⟩

/-- `MasterHttpClient::Login` (`MasterHttpClient.cpp:37-42`). -/
def loginRequest (email password : String) : HttpRequest :=
  ⟨"POST", "/auth/login", none, none, none, credentialsPayload email password⟩

def readLogin : Option HttpResponse → String
  | some res =>
    if res.status = 200 then ((Json.parse res.body).bind fun json => (indexOrNull json "token").bind Tree.getString).getD ""
    else ""
  | none => ""

/-- The client after the call and what it returns; `none` is an exception that leaves it. -/
def login (print : FloatText) (torn : Bytes → Tree) (writable : Bool) (s : LoginState) (res : Option HttpResponse) :
    Option (LoginState × Bool) :=
  if readLogin res = "" then some (s, false)
  else (saveAuthToken print torn writable s.config (readLogin res)).map fun config => (⟨readLogin res, config⟩, true)

/-! ## What is kept -/

theorem lookup_filter_other {key key' : String} (hne : key' ≠ key) (members : List (String × Tree)) :
    (members.filter fun m => m.1 != key).lookup key' = members.lookup key' := by
  induction members with
  | nil => rfl
  | cons m members ih =>
    rw [List.filter_cons]
    by_cases hm : m.1 = key
    · rw [if_neg (by simpa using hm), ih, List.lookup_cons, beq_false_of_ne (hm ▸ hne)]
    · rw [if_pos (by simpa using hm), List.lookup_cons, List.lookup_cons, ih]

theorem assign_at? {key : String} {v t t' : Tree} (h : assign key v t = some t') (key' : String) :
    t'.at? key' = if key' = key then some v else t.at? key' := by
  cases t with
  | obj members =>
    obtain rfl := Option.some.inj h
    simp only [Tree.at?, List.reverse_append, List.reverse_cons, List.reverse_nil, List.nil_append, List.singleton_append]
    by_cases hkey : key' = key
    · subst hkey
      rw [if_pos rfl, List.lookup_cons_self]
    · rw [if_neg hkey, List.lookup_cons, beq_false_of_ne hkey, ← List.filter_reverse]
      exact lookup_filter_other hkey members.reverse
  | null =>
    obtain rfl := Option.some.inj h
    by_cases hkey : key' = key
    · subst hkey
      simp [Tree.at?]
    · simp [Tree.at?, hkey, List.lookup_cons, beq_false_of_ne hkey]
  | _ => cases h

/-- **A saved token** is loaded again, and the other keys of the file are as they were. -/
theorem saveAuthToken_spec {print : FloatText} {torn : Bytes → Tree} {file file' : Option Bytes} {token : String}
    (h : saveAuthToken print torn true file token = some file') :
    loadAuthToken file' = token ∧
      ∀ key, key ≠ "auth_token" → (readConfig torn file').at? key = (readConfig torn file).at? key := by
  obtain ⟨json, hassign, rfl⟩ := Option.map_eq_some_iff.1 h
  have hfront := Json.parseFront_write print (some 4) json (s := []) (fun _ h => by cases h)
  rw [List.append_nil] at hfront
  constructor
  · simp only [if_true, loadAuthToken, hfront, Option.bind_some, assign_at? hassign, Tree.getString, Option.getD_some]
  · intro key hkey
    simp only [if_true, readConfig, hfront, Option.map_some, Option.getD_some, assign_at? hassign, if_neg hkey]

/-- A file that holds a value of another kind makes every login end in an exception. -/
theorem saveAuthToken_throws_iff {print : FloatText} {torn : Bytes → Tree} {writable : Bool} {file : Option Bytes}
    {token : String} : saveAuthToken print torn writable file token = none ↔
      readConfig torn file ≠ .null ∧ ∀ members, readConfig torn file ≠ .obj members := by
  rw [saveAuthToken, Option.map_eq_none_iff]
  cases readConfig torn file <;> simp [assign]

/-! ## Tokens are text -/

theorem utf8EncodeChar_ascii {b : UInt8} (h : b < 128) : String.utf8EncodeChar (Char.ofNat b.toNat) = [b] := by
  have hlt : b.toNat < 128 := h
  have hvalid : Nat.isValidChar b.toNat := Or.inl (by omega)
  have hchar : Char.ofNat b.toNat = Char.ofNatAux b.toNat hvalid := dif_pos hvalid
  have hval : (Char.ofNat b.toNat).val.toNat = b.toNat := by
    rw [hchar]
    rfl
  rw [String.utf8EncodeChar.eq_1]
  simp only [hval]
  rw [if_pos (by omega), UInt8.ofNat_toNat]

theorem utf8_charText {bs : Bytes} (h : ∀ b ∈ bs, b < 128) : Json.utf8 (charText bs) = bs := by
  have hsame : bs.flatMap (fun b => String.utf8EncodeChar (Char.ofNat b.toNat)) = bs := by
    induction bs with
    | nil => rfl
    | cons b bs ih =>
      rw [List.flatMap_cons, utf8EncodeChar_ascii (h b List.mem_cons_self), ih fun b' hb' => h b' (List.mem_cons_of_mem _ hb')]
      rfl
  simp only [Json.utf8, charText, String.toByteArray_ofList, List.utf8Encode, List.flatMap_map, hsame]
  simp

theorem hexDigit_lt {d : UInt8} (h : d < 16) : Json.hexDigit d < 128 := by
  have hd : d.toNat < 16 := h
  unfold Json.hexDigit
  rw [UInt8.lt_iff_toNat_lt]
  split
  · rw [UInt8.toNat_add, show (0x30 : UInt8).toNat = 48 from rfl, show (128 : UInt8).toNat = 128 from rfl]
    omega
  · rw [UInt8.toNat_add, show (0x57 : UInt8).toNat = 87 from rfl, show (128 : UInt8).toNat = 128 from rfl]
    omega

theorem writeNumber_lt {i : Int} {b : UInt8} (h : b ∈ Json.writeNumber i) : b < 128 := by
  have hdecimal : ∀ n : Nat, b ∈ decimal n → b < 128 := by
    intro n hb
    have hdigit := isDigit_of_mem_decimal hb
    rw [isDigit, Bool.and_eq_true, decide_eq_true_eq, decide_eq_true_eq] at hdigit
    exact UInt8.lt_of_le_of_lt hdigit.2 (by decide)
  unfold Json.writeNumber at h
  split at h
  · rcases List.mem_cons.1 h with rfl | h
    · decide
    · exact hdecimal _ h
  · exact hdecimal _ h

theorem hexPrint_lt {bs : Bytes} {b : UInt8} (h : b ∈ hexPrint bs) : b < 128 := by
  obtain ⟨c, -, hb⟩ := List.mem_flatMap.1 h
  have hc : c.toNat < 256 := c.toNat_lt
  simp only [List.mem_cons, List.not_mem_nil, or_false] at hb
  rcases hb with rfl | rfl
  · refine hexDigit_lt ?_
    rw [UInt8.lt_iff_toNat_lt, UInt8.toNat_div, show (16 : UInt8).toNat = 16 from rfl]
    omega
  · refine hexDigit_lt ?_
    rw [UInt8.lt_iff_toNat_lt, UInt8.toNat_mod, show (16 : UInt8).toNat = 16 from rfl]
    omega

theorem sessionToken_lt {cfg : MasterConfig} {u : Int32} {time : Int} {b : UInt8}
    (h : b ∈ generateSessionToken cfg.hmac u cfg.sessionSecret time) : b < 128 := by
  simp only [generateSessionToken, tokenPayload, List.mem_append, List.mem_cons] at h
  rcases h with (h | rfl | h) | rfl | h
  · exact writeNumber_lt h
  · decide
  · exact writeNumber_lt h
  · decide
  · exact hexPrint_lt h

/-! ## A day -/

/-- The answer to the request of a login. -/
theorem handle_loginRequest {cfg : MasterConfig} {env : Circumstances} {db : Store} (hup : env.dbUp = true)
    (email password : String) : (handle cfg env db (loginRequest email password)).2 =
      match loginToken cfg env db email password with
      | some token => ⟨200, dump (.obj [("status", .str "success"), ("token", .str (charText token))])⟩
      | none => ⟨401, errorText "Invalid credentials"⟩ := by
  have hbody : credentials (loginRequest email password).body = some (email, password) := credentials_payload email password
  exact handle_login hup rfl hbody

theorem readLogin_token {cfg : MasterConfig} {u : Int32} {time : Int} :
    readLogin (some ⟨200, dump (.obj [("status", .str "success"),
      ("token", .str (charText (generateSessionToken cfg.hmac u cfg.sessionSecret time)))])⟩) =
      charText (generateSessionToken cfg.hmac u cfg.sessionSecret time) := by
  simp [readLogin, indexOrNull, Tree.at?, Tree.getString]

theorem charText_token_ne {cfg : MasterConfig} {u : Int32} {time : Int} :
    charText (generateSessionToken cfg.hmac u cfg.sessionSecret time) ≠ "" := by
  intro h
  have hlength := congrArg String.length h
  rw [length_charText] at hlength
  simp [generateSessionToken] at hlength

/-- The right password is enough, unless the file holds what no key can be set in. -/
theorem login_of_signedUp {cfg : MasterConfig} {es : List MasterEvent} {db : Store}
    (hrun : exec (stepApi cfg) .empty es = some db) {env : Circumstances} (hup : env.dbUp = true)
    {id : Int} {email password password' salt : String} (hsigned : SignedUp cfg es id email password' salt)
    (hhash : hashPassword cfg password salt = hashPassword cfg password' salt) {print : FloatText} {torn : Bytes → Tree}
    {writable : Bool} {s : LoginState} (hfile : ∀ token, saveAuthToken print torn writable s.config token ≠ none) :
    ∃ s', login print torn writable s (some (handle cfg env db (loginRequest email password)).2) = some (s', true) := by
  have htoken : loginToken cfg env db email password =
      some (generateSessionToken cfg.hmac (Int32.ofInt id) cfg.sessionSecret env.clock) :=
    (loginToken_eq_some hrun).2 ⟨id, password', salt, hsigned, hhash, rfl⟩
  rw [handle_loginRequest hup, htoken]
  obtain ⟨config, hsave⟩ := Option.ne_none_iff_exists'.1
    (hfile (charText (generateSessionToken cfg.hmac (Int32.ofInt id) cfg.sessionSecret env.clock)))
  simp only [login, readLogin_token, if_neg charText_token_ne, hsave, Option.map_some]
  exact ⟨_, rfl⟩

/-- **A login lasts a day**: after one that returned `true` and could write the file, every process that starts from that
file sends requests that are taken, for a day, to be those of the account that was signed up with the email. -/
theorem login_lasts (cfg : MasterConfig) {es : List MasterEvent} {db : Store} (hrun : exec (stepApi cfg) .empty es = some db)
    {env : Circumstances} (hclock : ClockTime env.clock) {email password : String} {print : FloatText}
    {torn : Bytes → Tree} {s s' : LoginState}
    (hlogin : login print torn true s (some (handle cfg env db (loginRequest email password)).2) = some (s', true)) :
    ∃ id password' salt, SignedUp cfg es id email password' salt ∧
      hashPassword cfg password salt = hashPassword cfg password' salt ∧
      ∀ env' call, env'.clock ≤ env.clock + 86400 →
        userOf cfg env' (httpRequest (Json.utf8 (startClient s'.config).authToken) call) = .ok (Int32.ofInt id) := by
  have hroute : routeOf (loginRequest email password) = some .login := rfl
  have hbody : credentials (loginRequest email password).body = some (email, password) := credentials_payload email password
  unfold login at hlogin
  split at hlogin
  · cases hlogin
  rename_i hnonempty
  obtain ⟨config, hsave, hs⟩ := Option.map_eq_some_iff.1 hlogin
  cases hs
  obtain ⟨hload, -⟩ := saveAuthToken_spec hsave
  have hup : env.dbUp = true := by
    cases hup : env.dbUp with
    | true => rfl
    | false =>
      refine absurd ?_ hnonempty
      simp only [handle, hroute, handleLogin, hbody, hup]
      rfl
  rw [handle_loginRequest hup] at hload hnonempty
  cases htoken : loginToken cfg env db email password with
  | none =>
    rw [htoken] at hnonempty
    exact absurd rfl hnonempty
  | some token =>
    obtain ⟨id, password', salt, hsigned, hhash, rfl⟩ := (loginToken_eq_some hrun).1 htoken
    refine ⟨id, password', salt, hsigned, hhash, fun env' call hnow => ?_⟩
    rw [htoken, readLogin_token] at hload
    have hbearer : (httpRequest (Json.utf8 (startClient config).authToken) call).authorization =
        some (asciiText "Bearer " ++ generateSessionToken cfg.hmac (Int32.ofInt id) cfg.sessionSecret env.clock) := by
      rw [startClient, hload, utf8_charText fun _ => sessionToken_lt]
      cases call <;> rfl
    exact userOf_generate hbearer hclock hnow

theorem login_lasts_sample : ∃ db s', exec (stepApi sampleConfig) .empty
      [.request (sampleCircumstances 0) (sampleSignup "a@b.c")] = some db ∧
    login .exact (fun _ => .null) true ⟨"", none⟩ (some (handle sampleConfig (sampleCircumstances 0) db
      (loginRequest "a@b.c" "p")).2) = some (s', true) ∧
    ∃ id password' salt, SignedUp sampleConfig [.request (sampleCircumstances 0) (sampleSignup "a@b.c")] id "a@b.c"
        password' salt ∧ hashPassword sampleConfig "p" salt = hashPassword sampleConfig password' salt ∧
      ∀ env' call, env'.clock ≤ 0 + 86400 →
        userOf sampleConfig env' (httpRequest (Json.utf8 (startClient s'.config).authToken) call) = .ok (Int32.ofInt id) := by
  obtain ⟨db, hrun⟩ : ∃ db, exec (stepApi sampleConfig) .empty
    [.request (sampleCircumstances 0) (sampleSignup "a@b.c")] = some db := ⟨_, rfl⟩
  have hsigned : SignedUp sampleConfig [.request (sampleCircumstances 0) (sampleSignup "a@b.c")] Store.empty.userSeq "a@b.c"
      "p" (charText (hexPrint (List.replicate 16 0))) :=
    ⟨[], _, [], .empty, "a@b.c", rfl, rfl, signsUp_sample accountsOk_empty (by decide) fun _ _ hr => (by cases hr),
      by decide, rfl⟩
  obtain ⟨s', hlogin⟩ : ∃ s', login .exact (fun _ => .null) true ⟨"", none⟩ (some (handle sampleConfig (sampleCircumstances 0) db
      (loginRequest "a@b.c" "p")).2) = some (s', true) :=
    login_of_signedUp hrun rfl hsigned rfl fun _ h => by cases h
  exact ⟨db, s', hrun, hlogin, login_lasts sampleConfig hrun (by decide) hlogin⟩

end StorageEngine
