import StorageEngine.Lib.Extent
import StorageEngine.Cluster.Worker

/-!
# Encryption at rest

`EncryptBytes` and `DecryptBytes` over the EVP functions of OpenSSL, which are a parameter: each gives the bytes it puts
into the output buffer, `none` where it does not return 1. The buffers are the ones the code allocates; a byte past the end
is an `overrun`.

| here | there |
| --- | --- |
| `Setup.rand`, `newCtx`, `init`   | `RAND_bytes`, `EVP_CIPHER_CTX_new`, `EVP_EncryptInit_ex` or `EVP_DecryptInit_ex` |
| `encryptBytes`                   | `EncryptBytes` (`crypto.hpp:23-71`) |
| `decryptBytes`                   | `DecryptBytes` (`crypto.hpp:74-117`) |
-/

namespace StorageEngine

open Extent

/-- 32 bytes. -/
abbrev AesKey := { key : Bytes // key.length = 32 }

/-- 16 bytes. -/
abbrev Iv := { iv : Bytes // iv.length = 16 }

/-- What the calls on a fresh context write: `EVP_EncryptUpdate` on the data, then `EVP_EncryptFinal_ex`; and the two for
decryption. -/
structure Evp where
  encryptUpdate : AesKey → Iv → Bytes → Option Bytes
  encryptFinal : AesKey → Iv → Bytes → Option Bytes
  decryptUpdate : AesKey → Iv → Bytes → Option Bytes
  decryptFinal : AesKey → Iv → Bytes → Option Bytes

/-- AES-256-CBC with PKCS#7 padding: whole blocks as they are full and one padded block at the end, and decryption gives
the data back. -/
structure Evp.AesCbc (evp : Evp) : Prop where
  encrypts : ∀ key iv data, ∃ blocks last, evp.encryptUpdate key iv data = some blocks ∧
    evp.encryptFinal key iv data = some last ∧ blocks.length = data.length / 16 * 16 ∧ last.length = 16
  decrypts : ∀ key iv data blocks last, evp.encryptUpdate key iv data = some blocks →
    evp.encryptFinal key iv data = some last → ∃ front rest, evp.decryptUpdate key iv (blocks ++ last) = some front ∧
      evp.decryptFinal key iv (blocks ++ last) = some rest ∧ front ++ rest = data

/-- An exception with its text, or a write past the end of a buffer. -/
inductive CryptoError where
  | thrown (what : String)
  | overrun
deriving DecidableEq, Repr

/-- `std::memcpy` and the output of a call: `bytes` at `off` of a buffer. -/
def writeBuffer (buffer : Bytes) (off : Nat) (bytes : Bytes) : Except CryptoError Bytes :=
  if off + bytes.length ≤ buffer.length then .ok (writeAt 0 buffer off bytes) else .error .overrun

/-- `if (… != 1) throw`. -/
def orThrow {α : Type} (what : String) : Option α → Except CryptoError α
  | some a => .ok a
  | none => .error (.thrown what)

/-- The same for a call without output. -/
def check (b : Bool) (what : String) : Except CryptoError Unit := if b then .ok () else .error (.thrown what)

/-- The answers of the system to one call: random bytes, and whether a context was set up. -/
structure Setup where
  rand : Option Iv
  newCtx : Bool
  init : Bool

/-- `EVP_MAX_BLOCK_LENGTH`. -/
def evpMaxBlockLength : Nat := 32

def encryptBytes (evp : Evp) (key : AesKey) (setup : Setup) (rawData : Bytes) : Except CryptoError Bytes := do
  let iv ← orThrow "Failed to generate random IV" setup.rand
  check setup.newCtx "Failed to create EVP context"
  check setup.init "Encryption init failed"
  let finalOutput := List.replicate (16 + rawData.length + evpMaxBlockLength) 0
  let finalOutput ← writeBuffer finalOutput 0 iv.1
  let blocks ← orThrow "Encryption failed" (evp.encryptUpdate key iv rawData)
  let finalOutput ← writeBuffer finalOutput 16 blocks
  let last ← orThrow "Encryption finalization failed" (evp.encryptFinal key iv rawData)
  let finalOutput ← writeBuffer finalOutput (16 + blocks.length) last
  return finalOutput.take (16 + (blocks.length + last.length))

/-- The first 16 bytes, where there are that many. -/
def splitIv (fileData : Bytes) : Option (Iv × Bytes) :=
  if h : 16 ≤ fileData.length then some (⟨fileData.take 16, by simp [h]⟩, fileData.drop 16) else none

/-- A value that is put into an `int`. -/
def toInt32 (i : Int) : Int := i.bmod (2 ^ 32)

/-- `int ciphertext_size = file_data.size() - sizeof(iv)`; a negative one is no size of a vector. -/
def ciphertextSize (ciphertext : Bytes) : Option Nat :=
  if toInt32 ciphertext.length < 0 then none else some (toInt32 ciphertext.length).toNat

def decryptBytes (evp : Evp) (key : AesKey) (setup : Setup) (fileData : Bytes) : Except CryptoError Bytes := do
  let (iv, ciphertext) ← orThrow "Corrupted payload: Insufficient size for IV" (splitIv fileData)
  check setup.newCtx "Failed to create EVP context"
  check setup.init "Decryption init failed"
  let size ← orThrow "cannot create std::vector larger than max_size()" (ciphertextSize ciphertext)
  let decryptedData := List.replicate size 0
  let front ← orThrow "Decryption failed" (evp.decryptUpdate key iv (ciphertext.take size))
  let decryptedData ← writeBuffer decryptedData 0 front
  let rest ← orThrow "Decryption finalization failed (Padding error or Corrupted Data)"
    (evp.decryptFinal key iv (ciphertext.take size))
  let decryptedData ← writeBuffer decryptedData front.length rest
  return decryptedData.take (front.length + rest.length)

/-! ## The buffers -/

section

variable {ε α β : Type}

theorem ok_bind (a : α) (f : α → Except ε β) : ((.ok a : Except ε α) >>= f) = f a := rfl

theorem error_bind (e : ε) (f : α → Except ε β) : ((.error e : Except ε α) >>= f) = .error e := rfl

end

@[simp] theorem orThrow_some {α : Type} (what : String) (a : α) : orThrow what (some a) = .ok a := rfl

@[simp] theorem orThrow_none {α : Type} (what : String) :
    orThrow what (none : Option α) = .error (.thrown what) := rfl

@[simp] theorem check_true (what : String) : check true what = .ok () := rfl

@[simp] theorem check_false (what : String) : check false what = .error (.thrown what) := rfl

/-- What is written next to what is there. -/
theorem writeBuffer_ok (bytes : Bytes) {buffer written : Bytes} {off : Nat} (hwritten : buffer.take off = written)
    (hfits : off + bytes.length ≤ buffer.length) :
    ∃ buffer', writeBuffer buffer off bytes = .ok buffer' ∧ buffer'.length = buffer.length ∧
      buffer'.take (off + bytes.length) = written ++ bytes := by
  refine ⟨writeAt 0 buffer off bytes, if_pos hfits, ?_, ?_⟩
  · rw [length_writeAt]
    omega
  · rw [take_writeAt 0 (by omega), hwritten]

/-- The file of `data`: the IV and what the two calls wrote. -/
def Encrypted (evp : Evp) (key : AesKey) (data file : Bytes) : Prop :=
  ∃ iv blocks last, evp.encryptUpdate key iv data = some blocks ∧ evp.encryptFinal key iv data = some last ∧
    file = iv.1 ++ (blocks ++ last)

variable {evp : Evp} {key : AesKey} {setup : Setup}

/-- **The encryption buffer is large enough**, for every length. -/
theorem encryptBytes_ok (haes : evp.AesCbc) (key : AesKey) {iv : Iv} (hrand : setup.rand = some iv) (hctx : setup.newCtx = true)
    (hinit : setup.init = true) (data : Bytes) :
    ∃ file, encryptBytes evp key setup data = .ok file ∧ Encrypted evp key data file := by
  obtain ⟨blocks, last, hblocks, hlast, hlen, hlen'⟩ := haes.encrypts key iv data
  obtain ⟨buffer, hbuffer, hsize, htake⟩ := writeBuffer_ok iv.1
    (List.take_zero (l := List.replicate (16 + data.length + evpMaxBlockLength) (0 : UInt8)))
    (by rw [iv.2, List.length_replicate]; omega)
  rw [iv.2, Nat.zero_add, List.nil_append] at htake
  rw [List.length_replicate] at hsize
  obtain ⟨buffer', hbuffer', hsize', htake'⟩ := writeBuffer_ok blocks htake
    (by rw [hlen, hsize]; unfold evpMaxBlockLength; omega)
  obtain ⟨buffer'', hbuffer'', -, htake''⟩ := writeBuffer_ok last htake'
    (by rw [hsize', hsize, hlen, hlen']; unfold evpMaxBlockLength; omega)
  rw [Nat.add_assoc] at htake''
  refine ⟨iv.1 ++ (blocks ++ last), ?_, iv, blocks, last, hblocks, hlast, rfl⟩
  simp only [encryptBytes, hrand, hctx, hinit, orThrow_some, check_true, ok_bind, hbuffer, hblocks, hbuffer', hlast, hbuffer'',
    htake'', List.append_assoc]
  rfl

/-- **It is never written past its end**, whatever fails. -/
theorem encryptBytes_fits (haes : evp.AesCbc) (data : Bytes) : encryptBytes evp key setup data ≠ .error .overrun := by
  cases hrand : setup.rand with
  | none => simp [encryptBytes, hrand, error_bind]
  | some iv =>
    cases hctx : setup.newCtx with
    | false => simp [encryptBytes, hrand, hctx, ok_bind, error_bind]
    | true =>
      cases hinit : setup.init with
      | false => simp [encryptBytes, hrand, hctx, hinit, ok_bind, error_bind]
      | true =>
        obtain ⟨file, hfile, -⟩ := encryptBytes_ok haes key hrand hctx hinit data
        rw [hfile]
        exact nofun

theorem ciphertextSize_eq {ciphertext : Bytes} (h : ciphertext.length < 2 ^ 31) :
    ciphertextSize ciphertext = some ciphertext.length := by
  have hint : toInt32 ciphertext.length = ciphertext.length := Int.bmod_eq_of_le (by omega) (by omega)
  rw [ciphertextSize, hint, if_neg (by omega), Int.toNat_natCast]

theorem splitIv_append (iv : Iv) (ciphertext : Bytes) : splitIv (iv.1 ++ ciphertext) = some (iv, ciphertext) := by
  have hle : 16 ≤ (iv.1 ++ ciphertext).length := by
    rw [List.length_append, iv.2]
    omega
  rw [splitIv, dif_pos hle, Option.some.injEq, Prod.mk.injEq]
  exact ⟨Subtype.ext (List.take_left' iv.2), List.drop_left' iv.2⟩

/-- **What was encrypted is decrypted**, in a buffer of the size of the ciphertext. -/
theorem decryptBytes_encrypted (haes : evp.AesCbc) {data file : Bytes} (hlen : data.length < 2 ^ 30)
    (hfile : Encrypted evp key data file) (hctx : setup.newCtx = true) (hinit : setup.init = true) :
    decryptBytes evp key setup file = .ok data := by
  obtain ⟨iv, blocks, last, hblocks, hlast, rfl⟩ := hfile
  obtain ⟨front, rest, hfront, hrest, happ⟩ := haes.decrypts key iv data blocks last hblocks hlast
  obtain ⟨blocks', last', hblocks', hlast', hlen₁, hlen₂⟩ := haes.encrypts key iv data
  obtain rfl := Option.some.inj (hblocks.symm.trans hblocks')
  obtain rfl := Option.some.inj (hlast.symm.trans hlast')
  have hsize : ciphertextSize (blocks ++ last) = some (blocks ++ last).length :=
    ciphertextSize_eq (by rw [List.length_append]; omega)
  have hfits : front.length + rest.length ≤ (blocks ++ last).length := by
    rw [← List.length_append, happ, List.length_append]
    omega
  obtain ⟨buffer, hbuffer, hsize', htake⟩ := writeBuffer_ok front
    (List.take_zero (l := List.replicate (blocks ++ last).length (0 : UInt8))) (by rw [List.length_replicate]; omega)
  rw [Nat.zero_add, List.nil_append] at htake
  rw [List.length_replicate] at hsize'
  obtain ⟨buffer', hbuffer', -, htake'⟩ := writeBuffer_ok rest htake (by rw [hsize']; exact hfits)
  unfold decryptBytes
  rw [splitIv_append, orThrow_some, ok_bind]
  dsimp only
  rw [hctx, check_true, ok_bind, hinit, check_true, ok_bind, hsize, orThrow_some, ok_bind, List.take_length, hfront,
    orThrow_some, ok_bind, hbuffer, ok_bind, hrest, orThrow_some, ok_bind, hbuffer', ok_bind, htake', happ]
  rfl

/-- **The decryption buffer is large enough** for every file that was encrypted. -/
theorem decryptBytes_fits (haes : evp.AesCbc) {data file : Bytes} (hlen : data.length < 2 ^ 30)
    (hfile : Encrypted evp key data file) : decryptBytes evp key setup file ≠ .error .overrun := by
  cases hctx : setup.newCtx with
  | false =>
    unfold decryptBytes
    cases splitIv file with
    | none => exact nofun
    | some parts =>
      rw [orThrow_some, ok_bind, hctx]
      exact nofun
  | true =>
    cases hinit : setup.init with
    | false =>
      unfold decryptBytes
      cases splitIv file with
      | none => exact nofun
      | some parts =>
        rw [orThrow_some, ok_bind, hctx, hinit]
        exact nofun
    | true =>
      rw [decryptBytes_encrypted haes hlen hfile hctx hinit]
      exact nofun

/-! ## A key and its ciphertexts -/

/-- The bytes 0 to 31. -/
def sampleKey : AesKey := ⟨(List.range 32).map UInt8.ofNat, rfl⟩

/-- The bytes 0 to 15. -/
def sampleIv : Iv := ⟨(List.range 16).map UInt8.ofNat, rfl⟩

/-- The bytes 16 to 31. -/
def otherIv : Iv := ⟨(List.range' 16 16).map UInt8.ofNat, rfl⟩

/-- PKCS#7: as many bytes as are missing to a whole block, each of that value. -/
def pkcs7 (data : Bytes) : Bytes :=
  data ++ List.replicate (16 - data.length % 16) (UInt8.ofNat (16 - data.length % 16))

/-- The last byte says how many go. -/
def unpadded (padded : Bytes) : Bytes := padded.take (padded.length - (padded.getLast?.getD 0).toNat)

theorem length_pkcs7 (data : Bytes) : (pkcs7 data).length = (data.length / 16 + 1) * 16 := by
  rw [pkcs7, List.length_append, List.length_replicate]
  omega

theorem getLast?_pkcs7 (data : Bytes) : (pkcs7 data).getLast? = some (UInt8.ofNat (16 - data.length % 16)) := by
  have hpos : 16 - data.length % 16 ≠ 0 := by omega
  rw [pkcs7, List.getLast?_append, List.getLast?_replicate, if_neg hpos, Option.some_or]

theorem unpadded_pkcs7 (data : Bytes) : unpadded (pkcs7 data) = data := by
  have hbyte : (UInt8.ofNat (16 - data.length % 16)).toNat = 16 - data.length % 16 := by
    rw [UInt8.toNat_ofNat']
    omega
  rw [unpadded, getLast?_pkcs7, Option.getD_some, hbyte, pkcs7, List.length_append, List.length_replicate,
    Nat.add_sub_cancel, List.take_left]

/-- What OpenSSL gives for a chunk under `sampleKey`, without the IV. -/
structure KnownCiphertext where
  iv : Iv
  data : Bytes
  ciphertext : Bytes

/-- The chunk `a` under `sampleIv`. -/
def cipherA : Bytes := [47, 206, 120, 39, 243, 216, 209, 213, 224, 44, 62, 244, 147, 236, 254, 177]

/-- The chunk `a` under two IVs and the empty one, as AES-256-CBC encrypts them under `sampleKey`. -/
def knownCiphertexts : List KnownCiphertext :=
  [⟨sampleIv, [97], cipherA⟩,
    ⟨otherIv, [97], [110, 117, 175, 36, 251, 167, 226, 220, 88, 214, 13, 177, 181, 202, 252, 215]⟩,
    ⟨sampleIv, [], [233, 195, 239, 138, 178, 52, 83, 230, 240, 116, 156, 214, 54, 231, 168, 142]⟩]

/-- AES as far as the runs need it: elsewhere only the padding. -/
def knownCipher (iv : Iv) (data : Bytes) : Bytes :=
  ((knownCiphertexts.find? fun k => k.iv == iv && k.data == data).map KnownCiphertext.ciphertext).getD (pkcs7 data)

/-- Back again. -/
def knownDecipher (iv : Iv) (ciphertext : Bytes) : Bytes :=
  ((knownCiphertexts.find? fun k => k.iv == iv && k.ciphertext == ciphertext).map KnownCiphertext.data).getD
    (unpadded ciphertext)

/-- A known ciphertext in the two parts that the two calls write. -/
def sampleEvp : Evp where
  encryptUpdate _ iv data := some ((knownCipher iv data).take (data.length / 16 * 16))
  encryptFinal _ iv data := some ((knownCipher iv data).drop (data.length / 16 * 16))
  decryptUpdate _ iv ciphertext := some ((knownDecipher iv ciphertext).take (ciphertext.length - 16))
  decryptFinal _ iv ciphertext := some ((knownDecipher iv ciphertext).drop (ciphertext.length - 16))

theorem knownCipher_cases (iv : Iv) (data : Bytes) :
    (∃ k ∈ knownCiphertexts, k.iv = iv ∧ k.data = data ∧ knownCipher iv data = k.ciphertext) ∨
      knownCipher iv data = pkcs7 data := by
  unfold knownCipher
  cases hknown : knownCiphertexts.find? fun k => k.iv == iv && k.data == data with
  | none => exact Or.inr rfl
  | some k =>
    have hk := List.find?_some hknown
    rw [Bool.and_eq_true, beq_iff_eq, beq_iff_eq] at hk
    exact Or.inl ⟨k, List.mem_of_find?_eq_some hknown, hk.1, hk.2, rfl⟩

theorem length_knownCipher (iv : Iv) (data : Bytes) : (knownCipher iv data).length = (data.length / 16 + 1) * 16 := by
  have hlengths : ∀ k ∈ knownCiphertexts, k.ciphertext.length = (k.data.length / 16 + 1) * 16 := by decide
  rcases knownCipher_cases iv data with ⟨k, hk, -, rfl, hcipher⟩ | hcipher
  · rw [hcipher, hlengths k hk]
  · rw [hcipher, length_pkcs7]

/-- No known ciphertext ends as a padded text does. -/
theorem pkcs7_unknown {k : KnownCiphertext} (hk : k ∈ knownCiphertexts) (data : Bytes) : k.ciphertext ≠ pkcs7 data := by
  have hlast : ∀ k ∈ knownCiphertexts, 16 < (k.ciphertext.getLast?.getD 0).toNat := by decide
  have hlong := hlast k hk
  intro he
  rw [he, getLast?_pkcs7, Option.getD_some, UInt8.toNat_ofNat'] at hlong
  omega

theorem knownDecipher_cipher (iv : Iv) (data : Bytes) : knownDecipher iv (knownCipher iv data) = data := by
  rcases knownCipher_cases iv data with ⟨k, hk, rfl, rfl, hcipher⟩ | hcipher
  · have hback : ∀ k ∈ knownCiphertexts, knownDecipher k.iv k.ciphertext = k.data := by decide +kernel
    rw [hcipher, hback k hk]
  · have hnone : knownCiphertexts.find? (fun k => k.iv == iv && k.ciphertext == pkcs7 data) = none := by
      refine List.find?_eq_none.2 fun k hk => ?_
      simp [pkcs7_unknown hk data]
    rw [hcipher, knownDecipher, hnone, Option.map_none, Option.getD_none, unpadded_pkcs7]

theorem sampleEvp_aesCbc : sampleEvp.AesCbc where
  encrypts key iv data := by
    have hlen := length_knownCipher iv data
    exact ⟨_, _, rfl, rfl, by rw [List.length_take]; omega, by rw [List.length_drop]; omega⟩
  decrypts key iv data blocks last hblocks hlast := by
    obtain rfl := Option.some.inj hblocks
    obtain rfl := Option.some.inj hlast
    refine ⟨_, _, rfl, rfl, ?_⟩
    rw [List.take_append_drop, List.take_append_drop, knownDecipher_cipher]

end StorageEngine
