import StorageEngine.ControlPlane.Access
import StorageEngine.Metadata.Sealing

/-!
# Accounts

The `users` table only grows: `CREATE` is the one transaction that writes it, and no two rows have one email. So an
account is what the signup that made it has said, whatever comes after (`login_iff`): a login succeeds exactly where a
signup with that email was answered with 201 and the password has the same hash under its salt.
-/

namespace StorageEngine

open Relational Transition
open Json (Tree)

/-! ## The table -/

/-- What `CreateUser` did when it returned `true`. -/
structure CreateEffect (db : Store) (email passwordHash salt : String) (db' : Store) : Prop where
  fresh : db.users.get? db.userSeq = none
  effect : ∃ e p s, varchar 255 email = some e ∧ varchar 255 passwordHash = some p ∧ varchar 64 salt = some s ∧
    (∀ id r, db.users.get? id = some r → r.email ≠ e) ∧
    db' = { db with users := db.users.insertNew db.userSeq ⟨e, p, s⟩, userSeq := db.userSeq + 1 }

theorem createUser_true {db db' : Store} {email passwordHash salt : String} :
    createUser db email passwordHash salt = (db', true) ↔ CreateEffect db email passwordHash salt db' := by
  have hnone : ∀ e, (db.users.select fun _ u => u.email == e).isEmpty = true ↔
      ∀ id r, db.users.get? id = some r → r.email ≠ e := by
    intro e
    rw [List.isEmpty_iff, List.eq_nil_iff_forall_not_mem]
    constructor
    · exact fun h id r hr he => h (id, r) (Table.mem_select.2 ⟨hr, by simpa using he⟩)
    · exact fun h x hx => h x.1 x.2 (Table.mem_select.1 hx).1 (by simpa using (Table.mem_select.1 hx).2)
  constructor
  · intro h
    unfold createUser at h
    split at h
    · rename_i e p s he hp hs
      split at h
      · rename_i hempty
        split at h
        · rename_i us hus
          obtain ⟨hfresh, rfl⟩ := Table.insert?_eq_some.1 hus
          exact ⟨hfresh, e, p, s, he, hp, hs, (hnone e).1 hempty, (Prod.mk.inj h).1.symm⟩
        · cases (Prod.mk.inj h).2
      · cases (Prod.mk.inj h).2
    · cases (Prod.mk.inj h).2
  · rintro ⟨hfresh, e, p, s, he, hp, hs, hother, rfl⟩
    simp only [createUser, he, hp, hs, (hnone e).2 hother, if_true, Table.insert?_eq_some.2 ⟨hfresh, rfl⟩]

/-- **Every transaction** leaves the accounts as they are, or is a `CreateUser` that succeeds. -/
theorem Txn.users (n : Nat) (db : Store) (t : Txn) :
    ((t.apply n db).users = db.users ∧ (t.apply n db).userSeq = db.userSeq) ∨
    ∃ email passwordHash salt, t = .createUser email passwordHash salt ∧
      CreateEffect db email passwordHash salt (t.apply n db) := by
  cases t with
  | createUser email p s =>
    rcases hcreate : StorageEngine.createUser db email p s with ⟨db', ok⟩
    have happly : (Txn.createUser email p s).apply n db = db' := by simp [Txn.apply, hcreate]
    cases ok with
    | true => exact Or.inr ⟨email, p, s, rfl, happly ▸ createUser_true.1 hcreate⟩
    | false => exact Or.inl (by rw [happly, createUser_false hcreate]; exact ⟨rfl, rfl⟩)
  | registerWorker ih ip ah ap free =>
    refine Or.inl ?_
    simp only [Txn.apply]
    cases hres : StorageEngine.registerWorker db ih ip ah ap free with
    | error e => exact ⟨rfl, rfl⟩
    | ok db' =>
      unfold StorageEngine.registerWorker at hres
      split at hres
      · simp only at hres
        split at hres
        · split at hres <;> cases hres
          exact ⟨rfl, rfl⟩
        · cases hres
          exact ⟨rfl, rfl⟩
      · cases hres
  | filterMissingChunks hs =>
    refine Or.inl ?_
    simp only [Txn.apply]
    cases hres : StorageEngine.filterMissingChunks n db hs with
    | error e => exact ⟨rfl, rfl⟩
    | ok out =>
      obtain ⟨db', plans⟩ := out
      have hframe := (filterMissingChunks_effect hres).frame
      exact ⟨by rw [Except.map, committed, hframe], by rw [Except.map, committed, hframe]⟩
  | commitFile u f size hs =>
    refine Or.inl ?_
    simp only [Txn.apply]
    cases hres : StorageEngine.commitFile db u f size hs with
    | error e => exact ⟨rfl, rfl⟩
    | ok db' =>
      obtain ⟨-, -, arr, name, -, -, rfl⟩ := commitFile_ok.1 hres
      exact ⟨rfl, rfl⟩
  | deleteFile order u f =>
    refine Or.inl ?_
    simp only [Txn.apply]
    rcases deleteFile_cases order db u f with ⟨-, h⟩ | ⟨first, db', -, h, heffect⟩
    · rw [h]
      exact ⟨rfl, rfl⟩
    · rw [h, heffect.effect]
      exact ⟨rfl, rfl⟩
  | getOrphanedChunks order fault expiry limit =>
    refine Or.inl ?_
    cases fault with
    | none => exact ⟨rfl, rfl⟩
    | some fault => cases fault <;> exact ⟨rfl, rfl⟩
  | deleteChunkRecordsBulk hs =>
    refine Or.inl ?_
    simp only [Txn.apply, StorageEngine.deleteChunkRecordsBulk]
    split <;> exact ⟨rfl, rfl⟩
  | revertTombstone h => exact Or.inl ⟨rfl, rfl⟩
  | addCluster order name ids =>
    refine Or.inl ?_
    simp only [Txn.apply]
    cases hres : StorageEngine.addCluster n order db name ids with
    | error e => exact ⟨rfl, rfl⟩
    | ok db' =>
      unfold StorageEngine.addCluster at hres
      split at hres
      · cases hres
      split at hres
      · cases hres
      split at hres
      · cases hres
      split at hres <;> cases hres
      exact ⟨rfl, rfl⟩
  | replaceCluster id ids =>
    refine Or.inl ?_
    simp only [Txn.apply]
    cases hres : StorageEngine.replaceCluster db id ids with
    | error e => exact ⟨rfl, rfl⟩
    | ok db' =>
      unfold StorageEngine.replaceCluster at hres
      split at hres
      · cases hres
      split at hres <;> cases hres
      exact ⟨rfl, rfl⟩
  | tick d => exact Or.inl ⟨rfl, rfl⟩

/-- Every id was drawn from the sequence, and no email occurs twice. -/
structure AccountsOk (db : Store) : Prop where
  drawn : ∀ id r, db.users.get? id = some r → id < db.userSeq
  unique : ∀ id id' r r', db.users.get? id = some r → db.users.get? id' = some r' → r.email = r'.email → id = id'

theorem accountsOk_empty : AccountsOk .empty := ⟨fun _ _ h => (by cases h), fun _ _ _ _ h => (by cases h)⟩

theorem AccountsOk.apply {n : Nat} {db : Store} (h : AccountsOk db) (t : Txn) : AccountsOk (t.apply n db) := by
  rcases t.users n db with ⟨husers, hseq⟩ | ⟨email, p, s, -, hfresh, e, p', s', -, -, -, hother, heq⟩
  · exact ⟨by rw [husers, hseq]; exact h.drawn, by rw [husers]; exact h.unique⟩
  · rw [heq]
    constructor
    · intro id r hr
      simp only [Table.get?_insertNew, hfresh] at hr
      split at hr
      · rename_i he
        rw [he]
        exact Int.lt_succ _
      · exact Int.lt_trans (h.drawn id r hr) (Int.lt_succ _)
    · intro id id' r r' hr hr' hemail
      simp only [Table.get?_insertNew, hfresh] at hr hr'
      split at hr
      · rename_i hid
        obtain rfl := Option.some.inj hr
        split at hr'
        · rename_i hid'
          rw [hid, hid']
        · exact absurd hemail.symm (hother id' r' hr')
      · split at hr'
        · obtain rfl := Option.some.inj hr'
          exact absurd hemail (hother id r hr)
        · exact h.unique id id' r r' hr hr' hemail

/-- An account stays as it was made. -/
theorem apply_users_kept {n : Nat} {db : Store} (t : Txn) {id : Int} {r : UserRow} (hr : db.users.get? id = some r) :
    (t.apply n db).users.get? id = some r := by
  rcases t.users n db with ⟨husers, -⟩ | ⟨email, p, s, -, hfresh, e, p', s', -, -, -, -, heq⟩
  · rw [husers, hr]
  · rw [heq, Table.get?_insertNew, if_neg (fun he => by rw [he, hfresh] at hr; cases hr), hr]

/-- The record that is found is that of a row with the email, and there is only one. -/
theorem getUserByEmail_row {db : Store} (h : AccountsOk db) {id : Int} {r : UserRow} (hr : db.users.get? id = some r) :
    getUserByEmail db r.email = ⟨true, id, r.passwordHash, r.salt⟩ := by
  have hmem : (id, r) ∈ db.users.select fun _ u => u.email == r.email := Table.mem_select.2 ⟨hr, beq_self_eq_true _⟩
  unfold getUserByEmail
  split
  · rename_i hnone
    rw [hnone] at hmem
    cases hmem
  · rename_i id' r' rest hsome
    have hfirst : (id', r') ∈ db.users.select fun _ u => u.email == r.email := hsome ▸ List.mem_cons_self
    obtain ⟨hr', hemail⟩ := Table.mem_select.1 hfirst
    obtain rfl := h.unique id' id r' r hr' hr (by simpa using hemail)
    obtain rfl : r' = r := Option.some.inj (hr'.symm.trans hr)
    rfl

theorem getUserByEmail_found {db : Store} {email : String} (h : (getUserByEmail db email).found = true) :
    ∃ id r, db.users.get? id = some r ∧ r.email = email := by
  unfold getUserByEmail at h
  split at h
  · cases h
  · rename_i id r rest hsome
    have hmem : (id, r) ∈ db.users.select fun _ u => u.email == email := hsome ▸ List.mem_cons_self
    obtain ⟨hr, hemail⟩ := Table.mem_select.1 hmem
    exact ⟨id, r, hr, by simpa using hemail⟩

/-! ## Runs -/

section
variable {cfg : MasterConfig}

theorem AccountsOk.stepApi {db db' : Store} {e : MasterEvent} (h : AccountsOk db) (hstep : stepApi cfg db e = some db') :
    AccountsOk db' := by
  rcases stepApi_txn hstep with rfl | ⟨t, rfl, -⟩
  · exact h
  · exact h.apply t

theorem exec_accountsOk {es : List MasterEvent} {db : Store} (hrun : exec (stepApi cfg) .empty es = some db) :
    AccountsOk db := exec_inv (fun _ _ _ h hstep => h.stepApi hstep) accountsOk_empty hrun

theorem exec_users_kept {es : List MasterEvent} {db db' : Store} (hrun : exec (stepApi cfg) db es = some db') {id : Int}
    {r : UserRow} (hr : db.users.get? id = some r) : db'.users.get? id = some r :=
  exec_inv (fun db e db' (hr : db.users.get? id = some r) (hstep : stepApi cfg db e = some db') => by
    rcases stepApi_txn hstep with rfl | ⟨t, rfl, -⟩
    · exact hr
    · exact apply_users_kept t hr) hr hrun

/-! ## Signups -/

theorem utf8_inj {s t : String} : Json.utf8 s = Json.utf8 t ↔ s = t := by
  constructor
  · intro h
    have hdecode := congrArg Json.decodeUtf8 h
    rwa [Json.decodeUtf8_utf8, Json.decodeUtf8_utf8, Option.some.injEq] at hdecode
  · exact congrArg _

@[simp] theorem length_charText (bs : Bytes) : (charText bs).length = bs.length := by
  rw [charText, String.length_ofList, List.length_map]

@[simp] theorem length_hexPrint (bs : Bytes) : (hexPrint bs).length = 2 * bs.length := by
  induction bs with
  | nil => rfl
  | cons b bs ih =>
    rw [hexPrint, List.flatMap_cons, List.length_append, ← hexPrint, ih, List.length_cons]
    simp only [List.length_cons, List.length_nil]
    omega

/-- Both columns have room for what is stored in them. -/
theorem varchar_hashPassword (password salt : String) :
    varchar 255 (hashPassword cfg password salt) = some (hashPassword cfg password salt) :=
  varchar_of_le (by rw [hashPassword, length_charText, length_hexPrint, cfg.length_pbkdf2]; decide)

theorem varchar_salt (bytes : { bs : Bytes // bs.length = 16 }) :
    varchar 64 (charText (hexPrint bytes.1)) = some (charText (hexPrint bytes.1)) :=
  varchar_of_le (by rw [length_charText, length_hexPrint, bytes.2]; decide)

/-- The event is a signup that is answered with 201, and that is its salt. -/
def SignsUp (cfg : MasterConfig) (db : Store) (e : MasterEvent) (email password salt : String) : Prop :=
  ∃ env req bytes, e = .request env req ∧ routeOf req = some .signup ∧ credentials req.body = some (email, password) ∧
    env.randomBytes = some bytes ∧ salt = charText (hexPrint bytes.1) ∧ (handle cfg env db req).2.status = 201

/-- Such an event makes the account. -/
theorem SignsUp.row {db db' : Store} {e : MasterEvent} {email password salt : String}
    (h : SignsUp cfg db e email password salt) (hstep : stepApi cfg db e = some db') :
    ∃ email', varchar 255 email = some email' ∧
      CreateEffect db email (hashPassword cfg password salt) salt db' ∧
      db'.users.get? db.userSeq = some ⟨email', hashPassword cfg password salt, salt⟩ := by
  obtain ⟨env, req, bytes, rfl, hroute, hbody, hbytes, rfl, hstatus⟩ := h
  obtain rfl := Option.some.inj hstep
  simp only [handle, hroute, handleSignup, hbody, hbytes] at hstatus ⊢
  split at hstatus
  · rename_i db' hcreate
    cases hup : env.dbUp with
    | false => simp [hup] at hcreate
    | true =>
      rw [hup, if_pos rfl] at hcreate
      have heffect := createUser_true.1 hcreate
      obtain ⟨hfresh, email', p, s, hemail, hp, hs, -, rfl⟩ := heffect
      rw [varchar_hashPassword, Option.some.injEq] at hp
      rw [varchar_salt, Option.some.injEq] at hs
      subst hp hs
      refine ⟨email', hemail, createUser_true.1 hcreate, ?_⟩
      simp only
      rw [Table.get?_insertNew, if_pos rfl, hfresh, Option.getD_none]
  · cases hstatus

theorem handleSignup_changed {env : Circumstances} {db : Store} {body : Bytes} (h : (handleSignup cfg env db body).1 ≠ db) :
    (handleSignup cfg env db body).2.status = 201 := by
  unfold handleSignup at h ⊢
  split at h
  · exact absurd rfl h
  split at h
  · exact absurd rfl h
  simp only at h ⊢
  split at h
  · rfl
  · rename_i db' hcreate
    refine absurd ?_ h
    split at hcreate
    · exact createUser_false hcreate
    · exact (Prod.mk.inj hcreate).1.symm

/-- No other event makes one. -/
theorem signsUp_of_new {db db' : Store} {e : MasterEvent} (hstep : stepApi cfg db e = some db') {id : Int} {r : UserRow}
    (hold : db.users.get? id ≠ some r) (hnew : db'.users.get? id = some r) :
    ∃ email password, varchar 255 email = some r.email ∧ SignsUp cfg db e email password r.salt ∧
      r.passwordHash = hashPassword cfg password r.salt := by
  cases e with
  | background t =>
    simp only [StorageEngine.stepApi] at hstep
    split at hstep
    · rename_i ht
      obtain rfl := Option.some.inj hstep
      rcases t.users cfg.numBuckets db with ⟨husers, -⟩ | ⟨email, p, s, rfl, -⟩
      · exact absurd (husers ▸ hnew) hold
      · cases ht
    · cases hstep
  | request env req =>
    obtain rfl := Option.some.inj hstep
    have hserved := handle_served cfg env db req
    cases hout : handle cfg env db req with
    | mk db' res =>
      rw [hout] at hserved hnew
      cases hserved with
      | kept => exact absurd hnew hold
      | @changed t _ _ hgrants happly hstatus =>
        subst happly
        rcases t.users cfg.numBuckets db with ⟨husers, -⟩ | ⟨email, p, s, rfl, hfresh, email', p', s', hemail, hp, hs, -, heq⟩
        · exact absurd (husers ▸ hnew) hold
        obtain ⟨hroute, password, bytes, hbody, hbytes, rfl, rfl⟩ := hgrants
        rw [varchar_hashPassword, Option.some.injEq] at hp
        rw [varchar_salt, Option.some.injEq] at hs
        subst hp hs
        simp only at hnew
        rw [heq] at hnew
        simp only [Table.get?_insertNew, hfresh, Option.getD_none] at hnew
        split at hnew
        · rename_i hid
          obtain rfl := Option.some.inj hnew
          have hsignup : handle cfg env db req = handleSignup cfg env db req.body := by simp only [handle, hroute]
          refine ⟨email, password, hemail, ⟨env, req, bytes, rfl, hroute, hbody, hbytes, rfl, ?_⟩, rfl⟩
          rw [hsignup] at hout ⊢
          refine handleSignup_changed fun hsame => hold ?_
          rw [← hsame, hout]
          simp only
          rw [heq]
          simp only [Table.get?_insertNew, hfresh, Option.getD_none, if_pos hid]
        · exact absurd hnew hold

/-- A new email is signed up. -/
theorem signsUp_of_new_email {db : Store} (hok : AccountsOk db) {env : Circumstances} {req : HttpRequest}
    {email password email' : String} (bytes : { bs : Bytes // bs.length = 16 }) (hup : env.dbUp = true)
    (hroute : routeOf req = some .signup) (hbody : credentials req.body = some (email, password))
    (hbytes : env.randomBytes = some bytes) (hemail : varchar 255 email = some email')
    (hnew : ∀ id r, db.users.get? id = some r → r.email ≠ email') :
    SignsUp cfg db (.request env req) email password (charText (hexPrint bytes.1)) := by
  have hfresh : db.users.get? db.userSeq = none := by
    cases hget : db.users.get? db.userSeq with
    | none => rfl
    | some r => exact absurd (hok.drawn _ _ hget) (Int.lt_irrefl _)
  have hcreate := createUser_true.2 ⟨hfresh, email', hashPassword cfg password (charText (hexPrint bytes.1)),
    charText (hexPrint bytes.1), hemail, varchar_hashPassword password _, varchar_salt bytes, hnew, rfl⟩
  refine ⟨env, req, bytes, rfl, hroute, hbody, hbytes, rfl, ?_⟩
  simp only [handle, hroute, handleSignup, hbody, hbytes, hup, if_true, hcreate]

/-- Among the events is a signup that was answered with 201, of that email as the column keeps it, and that is the id the
account got. -/
def SignedUp (cfg : MasterConfig) (es : List MasterEvent) (id : Int) (email password salt : String) : Prop :=
  ∃ pre e post db email', es = pre ++ e :: post ∧ exec (stepApi cfg) .empty pre = some db ∧
    SignsUp cfg db e email' password salt ∧ varchar 255 email' = some email ∧ db.userSeq = id

theorem SignedUp.row {es : List MasterEvent} {db : Store} (hrun : exec (stepApi cfg) .empty es = some db) {id : Int}
    {email password salt : String} (h : SignedUp cfg es id email password salt) :
    db.users.get? id = some ⟨email, hashPassword cfg password salt, salt⟩ := by
  obtain ⟨pre, e, post, db₁, email', rfl, hpre, hsigns, hemail, rfl⟩ := h
  obtain ⟨db₁', hpre', hpost⟩ := exec_append.1 hrun
  obtain rfl := Option.some.inj (hpre.symm.trans hpre')
  obtain ⟨db₂, hstep, hpost⟩ := exec_cons.1 hpost
  obtain ⟨email'', hemail', -, hrow⟩ := hsigns.row hstep
  obtain rfl := Option.some.inj (hemail.symm.trans hemail')
  exact exec_users_kept hpost hrow

theorem signedUp_of_row {es : List MasterEvent} {db : Store} (hrun : exec (stepApi cfg) .empty es = some db) {id : Int}
    {r : UserRow} (hr : db.users.get? id = some r) :
    ∃ password, SignedUp cfg es id r.email password r.salt ∧ r.passwordHash = hashPassword cfg password r.salt := by
  obtain ⟨pre, e, post, db₁, db₂, rfl, hpre, hstep, hold, hnew⟩ :=
    exec_turn (P := fun db => db.users.get? id = some r) hrun (fun h => by cases h) hr
  obtain ⟨email, password, hemail, hsigns, hhash⟩ := signsUp_of_new hstep hold hnew
  obtain ⟨email', hemail', -, hrow⟩ := hsigns.row hstep
  obtain rfl := Option.some.inj (hemail.symm.trans hemail')
  have hid : db₁.userSeq = id := by
    have hok : AccountsOk db₂ := (exec_accountsOk hpre).stepApi hstep
    exact hok.unique _ _ _ _ hrow hnew rfl
  exact ⟨password, ⟨pre, e, post, db₁, email, rfl, hpre, hsigns, hemail, hid⟩, hhash⟩

/-- The token of a login is one for the account whose signup had that email, where the password has the hash of the one it
came with. -/
theorem loginToken_eq_some {es : List MasterEvent} {db : Store} (hrun : exec (stepApi cfg) .empty es = some db)
    {env : Circumstances} {email password : String} {token : Bytes} :
    loginToken cfg env db email password = some token ↔ ∃ id password' salt, SignedUp cfg es id email password' salt ∧
      hashPassword cfg password salt = hashPassword cfg password' salt ∧
      token = generateSessionToken cfg.hmac (Int32.ofInt id) cfg.sessionSecret env.clock := by
  have hok := exec_accountsOk hrun
  constructor
  · intro h
    simp only [loginToken] at h
    split at h
    · rename_i huser
      rw [Bool.and_eq_true, constantTimeEquals_iff] at huser
      obtain ⟨hfound, hhash⟩ := huser
      obtain ⟨id, r, hr, rfl⟩ := getUserByEmail_found hfound
      rw [getUserByEmail_row hok hr] at hhash h
      obtain ⟨password', hsigned, hhash'⟩ := signedUp_of_row hrun hr
      exact ⟨id, password', r.salt, hsigned, hhash' ▸ utf8_inj.1 hhash, (Option.some.inj h).symm⟩
    · cases h
  · rintro ⟨id, password', salt, hsigned, hhash, rfl⟩
    have huser := getUserByEmail_row hok (hsigned.row hrun)
    simp only at huser
    rw [loginToken, huser, hhash, if_pos (by simp [constantTimeEquals_iff])]

theorem handle_login {env : Circumstances} {db : Store} {req : HttpRequest} (hup : env.dbUp = true)
    (hroute : routeOf req = some .login) {email password : String} (hbody : credentials req.body = some (email, password)) :
    (handle cfg env db req).2 = match loginToken cfg env db email password with
      | some token => ⟨200, dump (.obj [("status", .str "success"), ("token", .str (charText token))])⟩
      | none => ⟨401, errorText "Invalid credentials"⟩ := by
  simp only [handle, hroute, handleLogin, hbody, hup, Bool.not_true, Bool.false_eq_true, if_false]
  cases loginToken cfg env db email password <;> rfl

/-- **A login** after any run succeeds exactly where one of its requests has signed up that email, and the password has the
hash of the one it came with; otherwise the answer is 401. -/
theorem login_iff (cfg : MasterConfig) {es : List MasterEvent} {db : Store} (hrun : exec (stepApi cfg) .empty es = some db)
    {env : Circumstances} {req : HttpRequest} (hup : env.dbUp = true) (hroute : routeOf req = some .login)
    {email password : String} (hbody : credentials req.body = some (email, password)) :
    ((handle cfg env db req).2.status = 200 ∨ (handle cfg env db req).2.status = 401) ∧
    ((handle cfg env db req).2.status = 200 ↔ ∃ id password' salt, SignedUp cfg es id email password' salt ∧
      hashPassword cfg password salt = hashPassword cfg password' salt) := by
  rw [handle_login hup hroute hbody]
  cases htoken : loginToken cfg env db email password with
  | some token =>
    obtain ⟨id, password', salt, hsigned, hhash, -⟩ := (loginToken_eq_some hrun).1 htoken
    exact ⟨Or.inl rfl, fun _ => ⟨id, password', salt, hsigned, hhash⟩, fun _ => rfl⟩
  | none =>
    refine ⟨Or.inr rfl, fun h => (by cases h), ?_⟩
    rintro ⟨id, password', salt, hsigned, hhash⟩
    rw [(loginToken_eq_some hrun).2 ⟨id, password', salt, hsigned, hhash, rfl⟩] at htoken
    cases htoken

/-- **One signup an email**: two signups of a run that were both answered with 201 are of different emails. -/
theorem signup_once (cfg : MasterConfig) {pre mid : List MasterEvent} {e e' : MasterEvent} {db₁ db₂ : Store}
    {email email' password password' salt salt' : String} (hpre : exec (stepApi cfg) .empty pre = some db₁)
    (hsigns : SignsUp cfg db₁ e email password salt) (hmid : exec (stepApi cfg) .empty (pre ++ e :: mid) = some db₂)
    (hsigns' : SignsUp cfg db₂ e' email' password' salt') : varchar 255 email ≠ varchar 255 email' := by
  intro hsame
  obtain ⟨stored, hstored⟩ : ∃ stored, varchar 255 email = some stored := by
    obtain ⟨db₁', hpre', hmid⟩ := exec_append.1 hmid
    obtain rfl := Option.some.inj (hpre.symm.trans hpre')
    obtain ⟨db₁'', hstep, -⟩ := exec_cons.1 hmid
    obtain ⟨stored, hstored, -⟩ := hsigns.row hstep
    exact ⟨stored, hstored⟩
  have hrow := SignedUp.row hmid ⟨pre, e, mid, db₁, email, rfl, hpre, hsigns, hstored, rfl⟩
  obtain ⟨env, req, -, rfl, -⟩ := id hsigns'
  obtain ⟨stored', hstored', heffect, -⟩ := hsigns'.row rfl
  obtain ⟨e, p, s, hemail, -, -, hother, -⟩ := heffect.effect
  rw [← hsame, hstored, Option.some.injEq] at hemail
  exact hother _ _ hrow hemail

/-- A sign-up of the email. -/
def sampleSignup (email : String) : HttpRequest := ⟨"POST", "/auth/signup", none, none, none, credentialsPayload email "p"⟩

theorem routeOf_sampleSignup (email : String) : routeOf (sampleSignup email) = some .signup := by
  have hlookup : routes.lookup ("POST", "/auth/signup") = some .signup := by decide
  simpa [routeOf, sampleSignup] using hlookup

theorem signsUp_sample {db : Store} (hok : AccountsOk db) {email : String} (hemail : varchar 255 email = some email)
    (hnew : ∀ id r, db.users.get? id = some r → r.email ≠ email) :
    SignsUp sampleConfig db (.request (sampleCircumstances 0) (sampleSignup email)) email "p"
      (charText (hexPrint (List.replicate 16 0))) :=
  signsUp_of_new_email hok ⟨List.replicate 16 0, rfl⟩ rfl (routeOf_sampleSignup email) (credentials_payload _ _) rfl
    hemail hnew

theorem login_iff_sample : ∃ db, exec (stepApi sampleConfig) .empty
      [.request (sampleCircumstances 0) (sampleSignup "a@b.c")] = some db ∧
    ((handle sampleConfig (sampleCircumstances 1) db sampleLogin).2.status = 200 ∨
      (handle sampleConfig (sampleCircumstances 1) db sampleLogin).2.status = 401) ∧
    ((handle sampleConfig (sampleCircumstances 1) db sampleLogin).2.status = 200 ↔ ∃ id password' salt,
      SignedUp sampleConfig [.request (sampleCircumstances 0) (sampleSignup "a@b.c")] id "a@b.c" password' salt ∧
      hashPassword sampleConfig "p" salt = hashPassword sampleConfig password' salt) :=
  ⟨_, rfl, login_iff sampleConfig rfl rfl (by decide) (credentials_payload _ _)⟩

theorem signup_once_sample : varchar 255 "a@b.c" ≠ varchar 255 "b" := by
  have hfirst : SignsUp sampleConfig .empty _ "a@b.c" "p" _ :=
    signsUp_sample accountsOk_empty (by decide) fun _ _ hr => by cases hr
  have hmid : exec (stepApi sampleConfig) .empty ([] ++ .request (sampleCircumstances 0) (sampleSignup "a@b.c") :: []) =
      some (handle sampleConfig (sampleCircumstances 0) .empty (sampleSignup "a@b.c")).1 := rfl
  refine signup_once sampleConfig rfl hfirst hmid (signsUp_sample (exec_accountsOk hmid) (by decide) fun id r hr => ?_)
  obtain ⟨password, ⟨pre, e, post, db, email', hes, -, hsigns, hemail, -⟩, -⟩ := signedUp_of_row hmid hr
  cases pre with
  | cons e' pre => simp at hes
  | nil =>
    obtain ⟨rfl, -⟩ := List.cons.inj hes
    obtain ⟨env, req, -, he, -, hbody, -⟩ := hsigns
    cases he
    rw [sampleSignup, credentials_payload] at hbody
    cases hbody
    have hrow : "a@b.c" = r.email := Option.some.inj hemail
    rw [← hrow]
    decide

/-! ## Requests from anyone -/

/-- A request without a token that is accepted and without the cluster's secret; or time passes. -/
def Anonymous (cfg : MasterConfig) : MasterEvent → Prop
  | .request env req => (∀ id, userOf cfg env req ≠ .ok id) ∧ req.clusterSecret ≠ some cfg.clusterSecret
  | .background t => ∃ d, t = .tick d

/-- What such events leave alone: the administrative routes can seal a worker, and no more of its row. -/
structure OpenFrame (db db' : Store) : Prop where
  files : db'.files = db.files
  chunks : db'.chunks = db.chunks
  workers : ∀ id, (db'.workers.get? id = none ↔ db.workers.get? id = none) ∧ ∀ w, db.workers.get? id = some w →
    db'.workers.get? id = some w ∨ db'.workers.get? id = some { w with status := .readOnly }
  users : ∀ id r, db.users.get? id = some r → db'.users.get? id = some r

theorem OpenFrame.refl (db : Store) : OpenFrame db db :=
  ⟨rfl, rfl, fun _ => ⟨Iff.rfl, fun _ => Or.inl⟩, fun _ _ => id⟩

theorem OpenFrame.trans {db₁ db₂ db₃ : Store} (h : OpenFrame db₁ db₂) (h' : OpenFrame db₂ db₃) : OpenFrame db₁ db₃ where
  files := h'.files.trans h.files
  chunks := h'.chunks.trans h.chunks
  workers id := by
    refine ⟨(h'.workers id).1.trans (h.workers id).1, fun w hw => ?_⟩
    rcases (h.workers id).2 w hw with hw' | hw' <;> rcases (h'.workers id).2 _ hw' with hw'' | hw''
    · exact Or.inl hw''
    · exact Or.inr hw''
    · exact Or.inr hw''
    · exact Or.inr hw''
  users id r hr := h'.users id r (h.users id r hr)

/-- A change of other tables. -/
theorem OpenFrame.of_workers {n : Nat} {db : Store} {t : Txn} (hquiet : Quiet db (t.apply n db))
    (hworkers : (t.apply n db).workers = db.workers) : OpenFrame db (t.apply n db) where
  files := hquiet.files
  chunks := hquiet.chunks
  workers id := by
    rw [hworkers]
    exact ⟨Iff.rfl, fun _ => Or.inl⟩
  users _ _ hr := apply_users_kept t hr

theorem ReplaceEffect.openFrame {db db' : Store} {clusterId : Int} {ids : List Int} {cluster : ClusterRow}
    (h : ReplaceEffect db clusterId ids cluster db') : OpenFrame db db' := by
  obtain ⟨-, -, rfl⟩ := h
  refine ⟨rfl, rfl, fun id => ⟨?_, fun w hw => ?_⟩, fun _ _ => id⟩
  · simp only [Table.get?_updateWhere, Option.map_eq_none_iff]
  · simp only [Table.get?_updateWhere, hw, Option.map_some]
    split
    · exact Or.inr rfl
    · exact Or.inl rfl

theorem Anonymous.openFrame {db db' : Store} {e : MasterEvent} (hanon : Anonymous cfg e)
    (hstep : StorageEngine.stepApi cfg db e = some db') : OpenFrame db db' := by
  cases e with
  | background t =>
    obtain ⟨d, rfl⟩ := hanon
    obtain rfl := Option.some.inj hstep
    exact ⟨rfl, rfl, fun _ => ⟨Iff.rfl, fun _ => Or.inl⟩, fun _ _ => id⟩
  | request env req =>
    obtain ⟨hnouser, hnosecret⟩ := hanon
    rcases stepApi_txn hstep with rfl | ⟨t, rfl, -, hgrants⟩
    · exact .refl _
    have hgrants := hgrants env req rfl
    cases t with
    | createUser email p s =>
      refine .of_workers (createUser_quiet db email p s) ?_
      simp only [Txn.apply]
      rcases hcreate : createUser db email p s with ⟨db', ok⟩
      cases ok with
      | true =>
        obtain ⟨_, _, _, _, _, _, _, heq⟩ := (createUser_true.1 hcreate).effect
        rw [heq]
      | false => rw [createUser_false hcreate]
    | addCluster order name ids =>
      simp only [Txn.apply]
      cases hadd : addCluster cfg.numBuckets order db name ids with
      | error e => exact .refl db
      | ok db' =>
        have hframe : OpenFrame db (Txn.apply cfg.numBuckets db (.addCluster order name ids)) := by
          refine .of_workers ?_ ?_
          · simpa only [Txn.apply, hadd, committed] using addCluster_quiet hadd
          · obtain ⟨-, -, name', heq⟩ := addCluster_effect hadd
            simp only [Txn.apply, hadd, committed, heq]
        simpa only [Txn.apply, hadd] using hframe
    | replaceCluster id ids =>
      simp only [Txn.apply]
      cases hreplace : replaceCluster db id ids with
      | error e => exact .refl db
      | ok db' =>
        obtain ⟨cluster, heffect⟩ := replaceCluster_effect hreplace
        exact heffect.openFrame
    | registerWorker ih ip ah ap free => exact absurd hgrants.2.1 hnosecret
    | filterMissingChunks hs => exact hgrants.2.1.elim fun id hid => absurd hid (hnouser id)
    | commitFile u f size hs => exact hgrants.2.1.elim fun id hid => absurd hid.1 (hnouser id)
    | deleteFile order u f => exact hgrants.2.1.elim fun id hid => absurd hid.1 (hnouser id)
    | _ => exact hgrants.elim

/-- **Whatever a stranger sends**, no file, chunk, account or worker is lost or altered, but for workers that
`ReplaceCluster` seals: the administrative routes do not ask who calls. -/
theorem anonymous_frame (cfg : MasterConfig) {es : List MasterEvent} {db db' : Store}
    (hanon : EachStep (stepApi cfg) (fun _ e => Anonymous cfg e) db es) (hrun : exec (stepApi cfg) db es = some db') :
    OpenFrame db db' :=
  hanon.inv (P := OpenFrame db) (fun _ _ _ h hanon hstep => h.trans (hanon.openFrame hstep)) (.refl db) hrun

/-- The first worker's place in its cluster goes to the second. -/
def sampleReplacement : HttpRequest :=
  ⟨"POST", "/admin/cluster/replace", none, none, none,
    dump (.obj [("cluster_id", .int 1), ("new_worker_ids", .arr [.int 2])])⟩

theorem handle_sampleReplacement : ((handle sampleConfig (sampleCircumstances 5) (busyStore ⟨"w", 9000, "h", 9000, 5, .active, 0⟩)
    sampleReplacement).1.workers.get? 1).map WorkerRow.status = some .readOnly := by
  have hroute : routeOf sampleReplacement = some .replaceCluster := by decide
  have hbody : replacementOf sampleReplacement.body = some (1, [2]) := by
    have hone : (Tree.int 1).getWrapped 32 = some 1 := Json.getWrapped_int (by decide) 1
    have htwo : (Tree.int 2).getWrapped 32 = some 2 := Json.getWrapped_int (by decide) 2
    simp [replacementOf, sampleReplacement, Tree.at?, Tree.getWrappeds, Tree.getItems, List.lookup_cons, hone, htwo]
  have hreplace : ((replaceCluster (busyStore ⟨"w", 9000, "h", 9000, 5, .active, 0⟩) 1 [2]).toOption.bind fun db =>
      db.workers.get? 1).map WorkerRow.status = some .readOnly := by
    decide +kernel
  simp only [handle, hroute, handleReplaceCluster, hbody]
  cases hres : replaceCluster (busyStore ⟨"w", 9000, "h", 9000, 5, .active, 0⟩) 1 [2] with
  | error e => rw [hres] at hreplace; cases hreplace
  | ok db' =>
    rw [hres] at hreplace
    exact hreplace

theorem anonymous_frame_sample : ∃ db', exec (stepApi sampleConfig) (busyStore ⟨"w", 9000, "h", 9000, 5, .active, 0⟩)
    [.request (sampleCircumstances 5) sampleReplacement, .background (.tick 1)] = some db' ∧
    (db'.workers.get? 1).map WorkerRow.status = some .readOnly ∧
    OpenFrame (busyStore ⟨"w", 9000, "h", 9000, 5, .active, 0⟩) db' := by
  have hreplacement : Anonymous sampleConfig (.request (sampleCircumstances 5) sampleReplacement) :=
    ⟨fun _ h => (by cases h), by decide⟩
  have hanon : EachStep (stepApi sampleConfig) (fun _ e => Anonymous sampleConfig e)
      (busyStore ⟨"w", 9000, "h", 9000, 5, .active, 0⟩)
      [.request (sampleCircumstances 5) sampleReplacement, .background (.tick 1)] :=
    fun _ _ => ⟨hreplacement, fun _ _ => ⟨⟨1, rfl⟩, trivial⟩⟩
  exact ⟨_, rfl, handle_sampleReplacement, anonymous_frame sampleConfig hanon rfl⟩

end

end StorageEngine
