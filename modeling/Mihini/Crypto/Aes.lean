import Mihini.Lib.Cbc
import Mihini.Lib.LuaString

/-!
# AES filters

`src/luafwk/crypto/aes.lua`, over `src/luafwk/crypto/openaes_core.c` and the chaining of
`src/libs/openaes/oaes_lib.c`.  The cipher of a block, the key store and the digest are given.
-/

namespace Mihini.Crypto

open Mihini.Lib
open List hiding Vector

abbrev Bytes := List UInt8

abbrev Block := Vector UInt8 16

def xor (a b : Block) : Block := Vector.zipWith (· ^^^ ·) a b

theorem xor_xor (a b : Block) : xor (xor a b) b = a := by
  ext i hi
  simp [xor, UInt8.xor_assoc]

/-- `oaes_encrypt_block` and `oaes_decrypt_block` with a key. -/
structure Cipher where
  encryptBlock : Block → Block
  decryptBlock : Block → Block
  decrypt_encrypt : ∀ b, decryptBlock (encryptBlock b) = b

def Cipher.chaining (c : Cipher) : BlockCipher Block where
  encrypt := c.encryptBlock
  decrypt := c.decryptBlock
  combine := xor
  decrypt_encrypt := c.decrypt_encrypt
  combine_combine := xor_xor

structure Env where
  /-- The key that `get_cipher_key` makes of a nonce and an index. -/
  cipher : Bytes → Nat → Cipher
  /-- `md5():update(nonce):digest(true)` -/
  md5 : Bytes → Block

/-! ## OpenAES -/

structure Ctx where
  cipher : Cipher
  iv : Block

/-- `oaes_header`, with the option for chaining. -/
def header (flags : UInt8) : Bytes :=
  [0x4f, 0x41, 0x45, 0x53, 0x01, 0x02, 0x02, 0x00, flags, 0, 0, 0, 0, 0, 0, 0]

/-- The blocks of a string; `oaes_encrypt` fills the last one up with 1, 2, .... -/
def blocks (m : Bytes) : List Block := Blocks.cut 16 (fun k => UInt8.ofNat (k + 1)) m

/-- `oaes_encrypt`, for a context with an initial vector. -/
def encrypt (ctx : Ctx) (m : Bytes) : Bytes × Ctx :=
  (header (if m.length % 16 = 0 then 0 else 1) ++ ctx.iv.toList ++
      Blocks.join (ctx.cipher.chaining.chain ctx.iv (blocks m)),
    { ctx with iv := ctx.cipher.chaining.next ctx.iv (blocks m) })

/-- `oaes_decrypt`, for the header that it is given here. -/
def decrypt (cipher : Cipher) (c : Bytes) : Option Bytes :=
  if c.length % 16 = 0 ∧ c.take 16 = header 0 then
    match blocks (c.drop 16) with
    | iv :: data => some (Blocks.join (cipher.chaining.unchain iv data))
    | [] => none
  else none

/-! ## The module -/

structure Filter where
  oaes : Ctx
  buffer : Bytes
  lastsent : Bool

/-- The results are `none` when an assertion fails. -/
def Filter.call (f : Filter) (data : Option Bytes) : Option (Filter × Option Bytes) :=
  if f.lastsent then some (f, none)
  else
    match data with
    | some [] => some (f, some [])
    | none =>
      let n : Int := 16 - f.buffer.length
      if 0 < n ∧ n ≤ 16 then
        let buffer := f.buffer ++ List.replicate n.toNat (UInt8.ofNat n.toNat)
        let (result, oaes) := encrypt f.oaes buffer
        some (⟨oaes, buffer, true⟩, some (LuaString.sub result 33 (-1)))
      else none
    | some data =>
      let buffer := f.buffer ++ data
      if buffer.length < 16 then some ({ f with buffer := buffer }, some [])
      else
        let nkept := buffer.length % 16
        let tosend := LuaString.sub buffer 1 (-nkept - 1)
        let tokeep := LuaString.sub buffer (-nkept) (-1)
        let (result, oaes) := encrypt f.oaes tosend
        some (⟨oaes, tokeep, false⟩, some (LuaString.sub result 33 (-1)))

def Filter.feed : Filter → List (Option Bytes) → Option Bytes
  | _, [] => some []
  | f, data :: rest => do
    let (f, result) ← f.call data
    let results ← f.feed rest
    some (result.getD [] ++ results)

section

variable (env : Env)

def encryptFilter (chaining : String) (length : Nat) (nonce : Bytes) (keyidx : Nat) :
    Except String Filter :=
  if chaining ≠ "cbc" ∨ length ≠ 128 then .error "scheme not supported"
  else .ok ⟨⟨env.cipher nonce keyidx, env.md5 nonce⟩, [], false⟩

def decryptFunction (chaining : String) (length : Nat) (nonce : Bytes) (keyidx : Nat)
    (cipheredText : Bytes) : Except String Bytes :=
  if chaining ≠ "cbc" ∨ length ≠ 128 then .error "scheme not supported"
  else if cipheredText.length % 16 ≠ 0 then .error "bad ciphered_text size"
  else
    match decrypt (env.cipher nonce keyidx) (header 0 ++ (env.md5 nonce).toList ++ cipheredText) with
    | none => .error "attempt to index local 'plain' (a nil value)"
    | some plain =>
      match plain.getLast? with
      | none => .error "attempt to compare number with nil"
      | some n =>
        if 0 < n.toNat ∧ n.toNat ≤ 16 then .ok (LuaString.sub plain 1 (-n.toNat - 1))
        else .error "assertion failed!"

end

/-! ## What is promised -/

def padding (length : Nat) : Bytes :=
  List.replicate (16 - length % 16) (UInt8.ofNat (16 - length % 16))

def encrypted (ctx : Ctx) (text : Bytes) : Bytes :=
  Blocks.join (ctx.cipher.chaining.chain ctx.iv (blocks (text ++ padding text.length)))

/-- The filter gives the encryption of the text that is cut into the chunks, and this is decrypted to
the text. -/
def Correct (env : Env) (nonce : Bytes) (keyidx : Nat) (chunks : List Bytes) : Prop :=
  ∃ filter out, encryptFilter env "cbc" 128 nonce keyidx = .ok filter ∧
    filter.feed (chunks.map some ++ [none]) = some out ∧
    out = encrypted ⟨env.cipher nonce keyidx, env.md5 nonce⟩ chunks.flatten ∧
    decryptFunction env "cbc" 128 nonce keyidx out = .ok chunks.flatten

/-- Data that come to a filter with some bytes in its buffer never make whole blocks with them. -/
def Ragged (buffer : Bytes) (chunks : List Bytes) : Prop :=
  ∀ cs, cs <+: chunks → cs.flatten ≠ [] → ¬ 16 ∣ (buffer ++ cs.flatten).length

/-! ## Decryption -/

theorem length_padding (length : Nat) : (padding length).length = 16 - length % 16 :=
  length_replicate

theorem dvd_padded (text : Bytes) : 16 ∣ (text ++ padding text.length).length := by
  rw [length_append, length_padding]
  omega

theorem getLast?_padded (text : Bytes) :
    (text ++ padding text.length).getLast? = some (UInt8.ofNat (16 - text.length % 16)) := by
  have hne : 16 - text.length % 16 ≠ 0 := by omega
  rw [List.getLast?_append, padding, List.getLast?_replicate, if_neg hne]
  rfl

theorem join_blocks {m : Bytes} (h : 16 ∣ m.length) : Blocks.join (blocks m) = m := by
  obtain ⟨bs, rfl⟩ := Blocks.exists_join h
  rw [blocks, Blocks.cut_join _ (by omega)]

theorem blocks_append {a : Bytes} (h : 16 ∣ a.length) (b : Bytes) :
    blocks (a ++ b) = blocks a ++ blocks b := by
  obtain ⟨bs, rfl⟩ := Blocks.exists_join h
  rw [blocks, blocks, blocks, Blocks.cut_append _ (by omega), Blocks.cut_join _ (by omega)]

theorem length_encrypted (ctx : Ctx) (text : Bytes) :
    (encrypted ctx text).length = text.length + (16 - text.length % 16) := by
  rw [encrypted, Blocks.length_join, BlockCipher.length_chain, ← Blocks.length_join,
    join_blocks (dvd_padded text), length_append, length_padding]

theorem decrypt_chain (cipher : Cipher) (iv : Block) (data : List Block) :
    decrypt cipher (header 0 ++ iv.toList ++ Blocks.join (cipher.chaining.chain iv data)) =
      some (Blocks.join data) := by
  have hjoin : iv.toList ++ Blocks.join (cipher.chaining.chain iv data) =
      Blocks.join (iv :: cipher.chaining.chain iv data) := rfl
  have hlen : (header 0).length = 16 := rfl
  rw [append_assoc, decrypt, length_append, hlen, hjoin, Blocks.length_join,
    take_append_of_le_length (Nat.le_refl 16), drop_append_of_le_length (Nat.le_refl 16),
    if_pos ⟨by omega, rfl⟩]
  show (match blocks (Blocks.join _) with
    | iv :: data => some (Blocks.join (cipher.chaining.unchain iv data))
    | [] => none) = _
  rw [blocks, Blocks.cut_join _ (by omega)]
  show some (Blocks.join (cipher.chaining.unchain iv (cipher.chaining.chain iv data))) = _
  rw [BlockCipher.unchain_chain]

theorem decryptFunction_encrypted (env : Env) (nonce : Bytes) (keyidx : Nat) (text : Bytes) :
    decryptFunction env "cbc" 128 nonce keyidx
      (encrypted ⟨env.cipher nonce keyidx, env.md5 nonce⟩ text) = .ok text := by
  have hsize : (encrypted ⟨env.cipher nonce keyidx, env.md5 nonce⟩ text).length % 16 = 0 := by
    rw [length_encrypted]
    omega
  have hpad : (UInt8.ofNat (16 - text.length % 16)).toNat = 16 - text.length % 16 := by
    rw [UInt8.toNat_ofNat']
    omega
  rw [decryptFunction, if_neg (by decide), if_neg (by omega), encrypted, decrypt_chain,
    join_blocks (dvd_padded text)]
  dsimp only
  rw [getLast?_padded]
  dsimp only
  rw [hpad, if_pos (by omega)]
  have hle : 16 - text.length % 16 ≤ (text ++ padding text.length).length := by
    rw [length_append, length_padding]
    omega
  have hcut : (text ++ padding text.length).length - (16 - text.length % 16) = text.length := by
    rw [length_append, length_padding]
    omega
  rw [LuaString.sub_to _ hle, hcut, take_left]

end Mihini.Crypto
