import StorageEngine.ControlPlane.Query
import StorageEngine.Lib.Json

/-!
# Session tokens

A token is the user id, the time of expiry and a signature of both, with dots between them. The MAC is a parameter, and
so is the clock. An arithmetic type of the source is one here where a value is kept in it.

| here | there |
| --- | --- |
| `Json.writeNumber`     | `std::to_string` of an integer |
| `hmacSha256`           | `hmac_sha256` (`common/crypto.hpp:158-174`), `hmac` being the bytes OpenSSL returns |
| `generateSessionToken` | `GenerateSessionToken` (`:178-190`) |
| `constantTimeEquals`   | `ConstantTimeEquals` (`:232-239`) |
| `segments`             | the `getline` loop (`:244-250`): it ends where no byte is left, so a last dot ends a segment and begins none |
| `stoll`, `stoi`        | `std::stoll` and `std::stoi`, `none` where they throw |
| `verifySessionToken`   | `VerifySessionToken` (`:242-289`), with the value of `user_id` it leaves |
| `authenticateUser`     | `MasterServer::AuthenticateUser` (`MasterServer.hpp:21-46`), of the `Authorization` header |
-/

namespace StorageEngine

open Reading

/-- The separator of a token. -/
def dot : UInt8 := 0x2e

/-- Two hexadecimal digits for each byte. -/
def hexPrint (bs : Bytes) : Bytes := bs.flatMap fun b => [Json.hexDigit (b / 16), Json.hexDigit (b % 16)]

section
variable (hmac : Bytes → Bytes → Bytes)

def hmacSha256 (key data : Bytes) : Bytes := hexPrint (hmac key data)

/-- `user_id + "." + expires_at`. -/
def tokenPayload (userId : Int32) (expiresAt : Int) : Bytes :=
  Json.writeNumber userId.toInt ++ dot :: Json.writeNumber expiresAt

def generateSessionToken (userId : Int32) (secretKey : Bytes) (now : Int) : Bytes :=
  let payload := tokenPayload userId (now + 86400)
  payload ++ dot :: hmacSha256 hmac secretKey payload

def constantTimeEquals (a b : Bytes) : Bool :=
  if a.length ≠ b.length then false else a == b

/-- Each turn takes what is before the next dot, as long as bytes are left. -/
def segmentsWithin : Nat → Bytes → List Bytes
  | 0, _ => []
  | turns + 1, s => if s.isEmpty then [] else (divide dot s).1 :: segmentsWithin turns (divide dot s).2

def segments (s : Bytes) : List Bytes := segmentsWithin s.length s

def stoll (s : Bytes) : Option Int := (leadingInt s).filter fun i => -2 ^ 63 ≤ i ∧ i < 2 ^ 63

def stoi (s : Bytes) : Option Int32 :=
  ((leadingInt s).filter fun i => -2 ^ 31 ≤ i ∧ i < 2 ^ 31).map Int32.ofInt

def verifySessionToken (token sessionSecret : Bytes) (now : Int) (userId : Int32) : Bool × Int32 :=
  match segments token with
  | [userIdStr, expiryStr, signature] =>
    let payload := userIdStr ++ dot :: expiryStr
    if !constantTimeEquals signature (hmacSha256 hmac sessionSecret payload) then (false, userId)
    else
      match stoll expiryStr with
      | none => (false, userId)
      | some expiry =>
        if expiry < now then (false, userId)
        else
          match stoi userIdStr with
          | none => (false, userId)
          | some id => (true, id)
  | _ => (false, userId)

/-- The status and the body of the refusal, or the user. -/
def authenticateUser (authorization : Option Bytes) (sessionSecret : Bytes) (now : Int) (userId : Int32) :
    Except (Nat × String) Int32 :=
  match authorization with
  | none => .error (401, "\x7b\"error\": \"Unauthorized: Missing token\"\x7d")
  | some header =>
    if !(asciiText "Bearer ").isPrefixOf header then .error (401, "\x7b\"error\": \"Unauthorized: Malformed token\"\x7d")
    else
      match verifySessionToken hmac (header.drop 7) sessionSecret now userId with
      | (true, id) => .ok id
      | (false, _) => .error (401, "\x7b\"error\": \"Unauthorized: Invalid or expired token\"\x7d")

end

/-! ## Segments -/

theorem divide_of_not_mem {d : UInt8} {a : Bytes} (hd : d ∉ a) : divide d a = (a, []) := by
  have ha : ∀ c ∈ a, (c != d) = true := fun c hc => by simpa using fun he : c = d => hd (he ▸ hc)
  rw [divide, List.takeWhile_eq_self_iff.2 ha, List.dropWhile_eq_nil_iff.2 ha, List.drop_nil]

theorem divide_spec (d : UInt8) (s : Bytes) : d ∉ (divide d s).1 ∧
    (s = (divide d s).1 ∧ (divide d s).2 = [] ∨ s = (divide d s).1 ++ d :: (divide d s).2) := by
  by_cases hd : d ∈ s
  · obtain ⟨a, b, rfl, ha⟩ := List.eq_append_cons_of_mem hd
    rw [divide_append ha]
    exact ⟨ha, Or.inr rfl⟩
  · rw [divide_of_not_mem hd]
    exact ⟨hd, Or.inl ⟨rfl, rfl⟩⟩

theorem length_divide_lt {s : Bytes} (hs : s ≠ []) (d : UInt8) : (divide d s).2.length < s.length := by
  have hpos := List.length_pos_of_ne_nil hs
  rcases (divide_spec d s).2 with ⟨-, hnil⟩ | happend
  · rw [hnil]
    exact hpos
  · have hlen := congrArg List.length happend
    rw [List.length_append, List.length_cons] at hlen
    omega

/-- More turns than bytes make no difference. -/
theorem segmentsWithin_eq {n m : Nat} {s : Bytes} (hn : s.length ≤ n) (hm : s.length ≤ m) :
    segmentsWithin n s = segmentsWithin m s := by
  induction n generalizing m s with
  | zero =>
    obtain rfl := List.eq_nil_of_length_eq_zero (Nat.le_zero.1 hn)
    cases m <;> rfl
  | succ n ih =>
    cases m with
    | zero =>
      obtain rfl := List.eq_nil_of_length_eq_zero (Nat.le_zero.1 hm)
      rfl
    | succ m =>
      rw [segmentsWithin, segmentsWithin]
      split
      · rfl
      · rename_i hs
        have hlt := length_divide_lt (fun he => hs (List.isEmpty_iff.2 he)) dot
        rw [ih (m := m) (by omega) (by omega)]

theorem segments_cons {x : Bytes} (hx : dot ∉ x) (rest : Bytes) : segments (x ++ dot :: rest) = x :: segments rest := by
  obtain ⟨k, hk⟩ : ∃ k, (x ++ dot :: rest).length = k + 1 := ⟨x.length + rest.length, by rw [List.length_append]; rfl⟩
  have hle : rest.length ≤ k := by
    rw [List.length_append, List.length_cons] at hk
    omega
  have hne : (x ++ dot :: rest).isEmpty = false := by simp
  rw [segments, hk, segmentsWithin, hne, divide_append hx]
  simp only [Bool.false_eq_true, if_false]
  rw [segments, segmentsWithin_eq hle (Nat.le_refl _)]

theorem segments_last {x : Bytes} (hx : dot ∉ x) (hne : x ≠ []) : segments x = [x] := by
  obtain ⟨k, hk⟩ : ∃ k, x.length = k + 1 := ⟨x.length - 1, by have := List.length_pos_of_ne_nil hne; omega⟩
  rw [segments, hk, segmentsWithin, divide_of_not_mem hx, if_neg fun h => hne (List.isEmpty_iff.1 h)]
  cases k <;> rfl

/-- **The segments** are what the dots stand between, a dot at the end apart. -/
theorem segments_spec {s : Bytes} {segs : List Bytes} (h : segments s = segs) :
    (∀ x ∈ segs, dot ∉ x) ∧ (s = segs.flatMap (· ++ [dot]) ∨ s ++ [dot] = segs.flatMap (· ++ [dot])) := by
  induction segs generalizing s with
  | nil =>
    refine ⟨fun x hx => (by cases hx), Or.inl ?_⟩
    by_contra hne
    rcases divide_spec dot s with ⟨hx, ⟨hs, -⟩ | hs⟩
    · rw [hs, segments_last hx (fun he => hne (hs.trans he))] at h
      cases h
    · rw [hs, segments_cons hx] at h
      cases h
  | cons x segs ih =>
    rcases divide_spec dot s with ⟨hx, ⟨hs, -⟩ | hs⟩
    · by_cases hnil : (divide dot s).1 = []
      · rw [hs, hnil] at h
        cases h
      · rw [hs, segments_last hx hnil] at h
        obtain ⟨rfl, rfl⟩ := List.cons.inj h
        refine ⟨fun y hy => List.mem_singleton.1 hy ▸ hx, Or.inr ?_⟩
        rw [List.flatMap_cons, List.flatMap_nil, List.append_nil, ← hs]
    · rw [hs, segments_cons hx] at h
      obtain ⟨rfl, hrest⟩ := List.cons.inj h
      obtain ⟨hdots, htext⟩ := ih hrest
      refine ⟨fun y hy => (List.mem_cons.1 hy).elim (fun he => he ▸ hx) (hdots y), ?_⟩
      rw [List.flatMap_cons]
      generalize (divide dot s).1 = a at hs ⊢
      generalize (divide dot s).2 = b at hs htext
      subst hs
      rcases htext with rfl | htext
      · exact Or.inl (by simp)
      · exact Or.inr (by simp [← htext])

/-! ## Numbers and signatures have no dot -/

theorem dot_not_mem_decimal (n : Nat) : dot ∉ decimal n := fun h => by
  have hdigit := isDigit_of_mem_decimal h
  cases hdigit

theorem dot_not_mem_writeNumber (i : Int) : dot ∉ Json.writeNumber i := by
  unfold Json.writeNumber
  split
  · rw [List.mem_cons, not_or]
    exact ⟨by decide, dot_not_mem_decimal _⟩
  · exact dot_not_mem_decimal _

theorem dot_not_mem_hexPrint (bs : Bytes) : dot ∉ hexPrint bs := by
  have hall : ∀ d < 16, Json.hexDigit (UInt8.ofNat d) ≠ dot := by decide
  have hdigit : ∀ b : UInt8, Json.hexDigit (b / 16) ≠ dot ∧ Json.hexDigit (b % 16) ≠ dot := forall_byte (by decide +kernel)
  intro h
  obtain ⟨b, -, hb⟩ := List.mem_flatMap.1 h
  simp only [List.mem_cons, List.not_mem_nil, or_false] at hb
  rcases hb with hb | hb
  · exact (hdigit b).1 hb.symm
  · exact (hdigit b).2 hb.symm

theorem leadingInt_writeNumber (i : Int) : leadingInt (Json.writeNumber i) = some i := by
  unfold Json.writeNumber
  split
  · rw [show Json.minus = 0x2d from rfl, leadingInt_minus_decimal, Option.some.injEq]
    omega
  · rw [leadingInt_decimal, Option.some.injEq]
    omega

theorem stoi_writeNumber (u : Int32) : stoi (Json.writeNumber u.toInt) = some u := by
  have hrange : -2 ^ 31 ≤ u.toInt ∧ u.toInt < 2 ^ 31 := ⟨u.le_toInt, u.toInt_lt⟩
  rw [stoi, leadingInt_writeNumber, Option.filter_some, if_pos (by simpa using hrange), Option.map_some, Int32.ofInt_toInt]

theorem stoll_writeNumber {i : Int} (h : -2 ^ 63 ≤ i ∧ i < 2 ^ 63) : stoll (Json.writeNumber i) = some i := by
  rw [stoll, leadingInt_writeNumber, Option.filter_some, if_pos (by simpa using h)]

theorem constantTimeEquals_iff {a b : Bytes} : constantTimeEquals a b = true ↔ a = b := by
  unfold constantTimeEquals
  split
  · rename_i hlen
    exact iff_of_false Bool.false_ne_true fun he => hlen (congrArg List.length he)
  · exact beq_iff_eq

/-! ## What is accepted -/

/-- A time of `system_clock`, which counts nanoseconds in 64 bits, in seconds. -/
def ClockTime (t : Int) : Prop := -9223372037 ≤ t ∧ t ≤ 9223372036

instance (t : Int) : Decidable (ClockTime t) := inferInstanceAs (Decidable (_ ∧ _))

section
variable (hmac : Bytes → Bytes → Bytes)

/-- The MAC is ideal for this token: a signature in it that is right is one a token was issued with. -/
def Unforged (secret : Bytes) (issued : Int32 → Int → Prop) (token : Bytes) : Prop :=
  ∀ userIdStr expiryStr signature, segments token = [userIdStr, expiryStr, signature] →
    signature = hmacSha256 hmac secret (userIdStr ++ dot :: expiryStr) →
    ∃ userId time, issued userId time ∧ userIdStr ++ dot :: expiryStr = tokenPayload userId (time + 86400)

variable {hmac} {secret : Bytes} {now : Int} {user : Int32}

/-- The text that is signed has one reading. -/
theorem tokenPayload_inj {userIdStr expiryStr : Bytes} (hdot : dot ∉ userIdStr) {userId : Int32} {expiresAt : Int}
    (h : userIdStr ++ dot :: expiryStr = tokenPayload userId expiresAt) :
    userIdStr = Json.writeNumber userId.toInt ∧ expiryStr = Json.writeNumber expiresAt := by
  have hdivide := congrArg (divide dot) h
  rw [divide_append hdot, tokenPayload, divide_append (dot_not_mem_writeNumber _), Prod.mk.injEq] at hdivide
  exact hdivide

/-- A rejected token leaves the user as it was. -/
theorem verifySessionToken_rejected (hmac : Bytes → Bytes → Bytes) (secret : Bytes) (now : Int) (user : Int32) (token : Bytes) :
    verifySessionToken hmac token secret now user = (false, user) ∨
    (verifySessionToken hmac token secret now user).1 = true := by
  unfold verifySessionToken
  split
  · simp only
    split
    · exact Or.inl rfl
    split
    · exact Or.inl rfl
    split
    · exact Or.inl rfl
    split
    · exact Or.inl rfl
    · exact Or.inr rfl
  · exact Or.inl rfl

/-- **Acceptance**: three segments, the right signature, and numbers in range, the later one not over. -/
theorem verifySessionToken_accepted {token : Bytes} {id : Int32} :
    verifySessionToken hmac token secret now user = (true, id) ↔
      ∃ userIdStr expiryStr expiry, now ≤ expiry ∧ stoll expiryStr = some expiry ∧ stoi userIdStr = some id ∧
        segments token = [userIdStr, expiryStr, hmacSha256 hmac secret (userIdStr ++ dot :: expiryStr)] := by
  constructor
  · intro h
    unfold verifySessionToken at h
    split at h
    · rename_i userIdStr expiryStr signature hsegments
      simp only at h
      split at h
      · cases h
      rename_i hsignature
      split at h
      · cases h
      rename_i expiry hexpiry
      split at h
      · cases h
      rename_i htime
      split at h
      · cases h
      rename_i id' hid
      obtain rfl : id' = id := (Prod.mk.inj h).2
      have hright := constantTimeEquals_iff.1 (by simpa using hsignature)
      exact ⟨userIdStr, expiryStr, expiry, by omega, hexpiry, hid, by rw [hsegments, hright]⟩
    · cases h
  · rintro ⟨userIdStr, expiryStr, expiry, htime, hexpiry, hid, hsegments⟩
    unfold verifySessionToken
    rw [hsegments]
    have hsame : constantTimeEquals (hmacSha256 hmac secret (userIdStr ++ dot :: expiryStr))
        (hmacSha256 hmac secret (userIdStr ++ dot :: expiryStr)) = true := constantTimeEquals_iff.2 rfl
    simp only [hsame, Bool.not_true, Bool.false_eq_true, if_false, hexpiry, hid, if_neg (show ¬ expiry < now by omega)]

/-- The segments of an issued token. -/
def issuedSegments (hmac : Bytes → Bytes → Bytes) (secret : Bytes) (userId : Int32) (time : Int) : List Bytes :=
  [Json.writeNumber userId.toInt, Json.writeNumber (time + 86400), hmacSha256 hmac secret (tokenPayload userId (time + 86400))]

theorem generate_eq (hmac : Bytes → Bytes → Bytes) (secret : Bytes) (userId : Int32) (time : Int) :
    generateSessionToken hmac userId secret time ++ [dot] = (issuedSegments hmac secret userId time).flatMap (· ++ [dot]) := by
  simp [generateSessionToken, tokenPayload, issuedSegments]

/-- A dot after it makes no difference. -/
theorem segments_generate (hlen : ∀ key data, (hmac key data).length = 32) (secret : Bytes) (userId : Int32) (time : Int)
    {tail : Bytes}
    (htail : tail = [] ∨ tail = [dot]) :
    segments (generateSessionToken hmac userId secret time ++ tail) = issuedSegments hmac secret userId time := by
  have hsignature : dot ∉ hmacSha256 hmac secret (tokenPayload userId (time + 86400)) := dot_not_mem_hexPrint _
  have hne : hmacSha256 hmac secret (tokenPayload userId (time + 86400)) ≠ [] := by
    intro hnil
    have hempty : hmac secret (tokenPayload userId (time + 86400)) = [] := by
      refine List.eq_nil_iff_forall_not_mem.2 fun b hb => ?_
      have hin := List.flatMap_eq_nil_iff.1 hnil b hb
      cases hin
    have hlength := hlen secret (tokenPayload userId (time + 86400))
    rw [hempty] at hlength
    cases hlength
  have htext : generateSessionToken hmac userId secret time ++ tail = Json.writeNumber userId.toInt ++ dot ::
      (Json.writeNumber (time + 86400) ++ dot :: (hmacSha256 hmac secret (tokenPayload userId (time + 86400)) ++ tail)) := by
    simp [generateSessionToken, tokenPayload]
  rw [htext, segments_cons (dot_not_mem_writeNumber _), segments_cons (dot_not_mem_writeNumber _)]
  rcases htail with rfl | rfl
  · rw [List.append_nil, segments_last hsignature hne]
    rfl
  · rw [segments_cons hsignature]
    rfl

/-- **An issued token** is accepted until it expires. -/
theorem verify_generate (hlen : ∀ key data, (hmac key data).length = 32) (secret : Bytes) (now : Int) (user userId id : Int32)
    {time : Int} (htime : ClockTime time) {tail : Bytes} (htail : tail = [] ∨ tail = [dot]) :
    verifySessionToken hmac (generateSessionToken hmac userId secret time ++ tail) secret now user = (true, id) ↔
      now ≤ time + 86400 ∧ id = userId := by
  have hsegments := segments_generate hlen secret userId time htail
  have hrange : -2 ^ 63 ≤ time + 86400 ∧ time + 86400 < 2 ^ 63 := by
    unfold ClockTime at htime
    omega
  rw [verifySessionToken_accepted]
  constructor
  · rintro ⟨userIdStr, expiryStr, expiry, hnow, hexpiry, hid, hsame⟩
    rw [hsegments] at hsame
    obtain ⟨rfl, hsame⟩ := List.cons.inj hsame
    obtain ⟨rfl, -⟩ := List.cons.inj hsame
    rw [stoll_writeNumber hrange, Option.some.injEq] at hexpiry
    rw [stoi_writeNumber, Option.some.injEq] at hid
    exact ⟨by omega, hid.symm⟩
  · rintro ⟨hnow, rfl⟩
    exact ⟨_, _, time + 86400, hnow, stoll_writeNumber hrange, stoi_writeNumber id, hsegments⟩

/-- **Session tokens are accepted as issued**, and with one more dot. -/
theorem session_token_iff (hlen : ∀ key data, (hmac key data).length = 32) (secret : Bytes) :
    (∀ userId time now user, ClockTime time →
      (verifySessionToken hmac (generateSessionToken hmac userId secret time) secret now user = (true, userId) ↔
        now ≤ time + 86400)) ∧
    (∀ token now user, (verifySessionToken hmac token secret now user).1 = false →
      (verifySessionToken hmac token secret now user).2 = user) ∧
    ∀ (issued : Int32 → Int → Prop) (token : Bytes) (now : Int) (user : Int32),
      (∀ userId time, issued userId time → ClockTime time) → Unforged hmac secret issued token →
      ((∀ id, verifySessionToken hmac token secret now user = (true, id) →
        ∃ time, issued id time ∧ token = generateSessionToken hmac id secret time) ↔
      ¬ ∃ userId time, issued userId time ∧ now ≤ time + 86400 ∧
        token = generateSessionToken hmac userId secret time ++ [dot]) := by
  refine ⟨fun userId time now user htime => ?_, fun token now user h => ?_,
    fun issued token now user hclock hmade => ⟨?_, fun hnot id haccepted => ?_⟩⟩
  · have haccepted := verify_generate hlen secret now user userId userId htime (Or.inl rfl)
    rw [List.append_nil] at haccepted
    simpa using haccepted
  · rcases verifySessionToken_rejected hmac secret now user token with hsame | htrue
    · rw [hsame]
    · rw [htrue] at h
      cases h
  · rintro hexact ⟨userId, time, hissued, hnow, rfl⟩
    obtain ⟨time', -, hsame⟩ := hexact userId ((verify_generate hlen secret now user userId userId (hclock _ _ hissued) (Or.inr rfl)).2 ⟨hnow, rfl⟩)
    -- both texts have the same segments, so they would be one token
    have hsegments := segments_generate hlen secret userId time (Or.inr rfl)
    have hsegments' := segments_generate hlen secret userId time' (Or.inl rfl)
    rw [List.append_nil, ← hsame, hsegments] at hsegments'
    have htext := generate_eq hmac secret userId time'
    rw [← hsegments', ← generate_eq, List.append_cancel_right_eq] at htext
    rw [htext] at hsame
    exact absurd hsame (by simp)
  · obtain ⟨userIdStr, expiryStr, expiry, hnow, hexpiry, hid, hsegments⟩ := verifySessionToken_accepted.1 haccepted
    obtain ⟨hdots, htext⟩ := segments_spec hsegments
    obtain ⟨userId, time, hissued, hpayload⟩ := hmade _ _ _ hsegments rfl
    obtain ⟨rfl, rfl⟩ := tokenPayload_inj (hdots _ List.mem_cons_self) hpayload
    have hclk := hclock userId time hissued
    have hrange : -2 ^ 63 ≤ time + 86400 ∧ time + 86400 < 2 ^ 63 := by
      unfold ClockTime at hclk
      omega
    rw [stoll_writeNumber hrange, Option.some.injEq] at hexpiry
    rw [stoi_writeNumber, Option.some.injEq] at hid
    subst hid hexpiry
    rw [hpayload, ← issuedSegments, ← generate_eq] at htext
    rcases htext with hmore | hexactly
    · exact absurd ⟨userId, time, hissued, hnow, hmore⟩ hnot
    · exact ⟨time, hissued, List.append_cancel_right hexactly⟩

/-- **A request passes** with a bearer token that is accepted, and is answered with 401 without one. -/
theorem authenticateUser_ok {authorization : Option Bytes} {id : Int32} :
    authenticateUser hmac authorization secret now user = .ok id ↔
      ∃ token, authorization = some (asciiText "Bearer " ++ token) ∧
        verifySessionToken hmac token secret now user = (true, id) := by
  unfold authenticateUser
  cases authorization with
  | none => simp
  | some header =>
    simp only
    by_cases hbearer : (asciiText "Bearer ").isPrefixOf header = true
    · obtain ⟨token, rfl⟩ := List.isPrefixOf_iff_prefix.1 hbearer
      have htoken : (asciiText "Bearer " ++ token).drop 7 = token := rfl
      rw [hbearer, htoken]
      rcases hverify : verifySessionToken hmac token secret now user with ⟨accepted, id'⟩
      constructor
      · intro h
        cases accepted with
        | true =>
          obtain rfl : id' = id := by simpa using h
          exact ⟨token, rfl, hverify⟩
        | false => cases h
      · rintro ⟨token', hsame, haccepted⟩
        obtain rfl := List.append_cancel_left (Option.some.inj hsame)
        rw [hverify] at haccepted
        obtain ⟨rfl, rfl⟩ := Prod.mk.inj haccepted
        rfl
    · rw [Bool.not_eq_true] at hbearer
      rw [hbearer]
      refine iff_of_false (by simp) ?_
      rintro ⟨token, hsame, -⟩
      rw [Option.some.inj hsame, List.isPrefixOf_iff_prefix.2 (List.prefix_append _ _)] at hbearer
      cases hbearer

theorem authenticateUser_error {authorization : Option Bytes} {e : Nat × String}
    (h : authenticateUser hmac authorization secret now user = .error e) : e.1 = 401 := by
  unfold authenticateUser at h
  split at h
  · cases h
    rfl
  · split at h
    · cases h
      rfl
    · split at h
      · cases h
      · cases h
        rfl

end

/-! ## One token -/

/-- Under the key `k`, of the payload `7.86400`. -/
def sampleMac : Bytes :=
  [0x24, 0xdf, 0x9d, 0x97, 0x5d, 0xbc, 0xf9, 0xae, 0x6f, 0xa7, 0x6a, 0x7d, 0x13, 0x7d, 0x08, 0x90,
   0x76, 0xc2, 0xe0, 0xd9, 0xb3, 0x73, 0x35, 0x16, 0x4d, 0x53, 0x88, 0x88, 0xbf, 0x09, 0xa4, 0x44]

/-- HMAC-SHA256 as far as the token needs it. -/
def sampleHmac (key data : Bytes) : Bytes :=
  if key = asciiText "k" ∧ data = asciiText "7.86400" then sampleMac else List.replicate 32 0

theorem length_sampleHmac (key data : Bytes) : (sampleHmac key data).length = 32 := by
  unfold sampleHmac
  split <;> rfl

/-- Only user 7 has a token. -/
def issuedToSeven (userId : Int32) (time : Int) : Prop := userId = 7 ∧ time = 0

theorem unforged_seven {tail : Bytes} (htail : tail = [] ∨ tail = [dot]) : Unforged sampleHmac (asciiText "k") issuedToSeven
    (generateSessionToken sampleHmac 7 (asciiText "k") 0 ++ tail) := by
  intro userIdStr expiryStr signature hsegments _
  rw [segments_generate length_sampleHmac (asciiText "k") 7 0 htail] at hsegments
  obtain ⟨rfl, hrest⟩ := List.cons.inj hsegments
  obtain ⟨rfl, -⟩ := List.cons.inj hrest
  exact ⟨7, 0, ⟨rfl, rfl⟩, rfl⟩

theorem session_token_seven :
    (verifySessionToken sampleHmac (generateSessionToken sampleHmac 7 (asciiText "k") 0) (asciiText "k") 86400 0 = (true, 7) ↔
      (86400 : Int) ≤ 0 + 86400) ∧
    ((∀ id, verifySessionToken sampleHmac (generateSessionToken sampleHmac 7 (asciiText "k") 0 ++ []) (asciiText "k") 5 0 =
        (true, id) → ∃ time, issuedToSeven id time ∧
          generateSessionToken sampleHmac 7 (asciiText "k") 0 ++ [] = generateSessionToken sampleHmac id (asciiText "k") time) ↔
      ¬ ∃ userId time, issuedToSeven userId time ∧ 5 ≤ time + 86400 ∧ generateSessionToken sampleHmac 7 (asciiText "k") 0 ++ [] =
        generateSessionToken sampleHmac userId (asciiText "k") time ++ [dot]) :=
  ⟨(session_token_iff length_sampleHmac (asciiText "k")).1 7 0 86400 0 (by decide),
    (session_token_iff length_sampleHmac (asciiText "k")).2.2 issuedToSeven _ 5 0
      (fun _ _ h => by rw [h.2]; decide) (unforged_seven (Or.inl rfl))⟩

/-- The token of user 7 with a dot after it is accepted. -/
theorem trailingDot_accepted : ¬ ∀ (hmac : Bytes → Bytes → Bytes) (secret : Bytes) (issued : Int32 → Int → Prop)
    (token : Bytes) (now : Int) (user : Int32), (∀ key data, (hmac key data).length = 32) →
    (∀ userId time, issued userId time → ClockTime time) → Unforged hmac secret issued token →
    ∀ id, verifySessionToken hmac token secret now user = (true, id) →
      ∃ time, issued id time ∧ token = generateSessionToken hmac id secret time := by
  intro h
  have haccepted : verifySessionToken sampleHmac (generateSessionToken sampleHmac 7 (asciiText "k") 0 ++ [dot])
      (asciiText "k") 5 0 = (true, 7) :=
    (verify_generate length_sampleHmac (asciiText "k") 5 0 7 7 (by decide) (Or.inr rfl)).2 ⟨by decide, rfl⟩
  obtain ⟨time, ⟨-, rfl⟩, hsame⟩ := h sampleHmac (asciiText "k") issuedToSeven _ 5 0 length_sampleHmac
    (fun _ _ hissued => by rw [hissued.2]; decide) (unforged_seven (Or.inr rfl)) 7 haccepted
  exact absurd hsame (by simp)

end StorageEngine
