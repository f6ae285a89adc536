import Mihini.Crypto.Aes

/-!
# Filters and whole texts

What a filter sends for chunks, when the data never end at a block, and how much it sends when they
do.
-/

namespace Mihini.Crypto

open Mihini.Lib
open List hiding Vector

/-! ## A call -/

section

variable {f : Filter} {d : Bytes} (hopen : f.lastsent = false)
include hopen

theorem call_empty : f.call (some []) = some (f, some []) := by
  unfold Filter.call
  rw [if_neg (by simp [hopen])]

theorem call_short (hd : d ≠ []) (h : (f.buffer ++ d).length < 16) :
    f.call (some d) = some ({ f with buffer := f.buffer ++ d }, some []) := by
  cases d with
  | nil => exact absurd rfl hd
  | cons x d =>
    unfold Filter.call
    rw [if_neg (by simp [hopen])]
    exact if_pos h

/-- The data make blocks, and some bytes are left. -/
theorem call_blocks (hd : d ≠ []) {bs : List Block} {rest : Bytes}
    (hsplit : f.buffer ++ d = Blocks.join bs ++ rest) (hbs : bs ≠ []) (hrest : rest ≠ [])
    (hlt : rest.length < 16) :
    f.call (some d) = some (⟨{ f.oaes with iv := f.oaes.cipher.chaining.next f.oaes.iv bs }, rest, false⟩,
      some (Blocks.join (f.oaes.cipher.chaining.chain f.oaes.iv bs))) := by
  have hjoin : (Blocks.join bs).length = 16 * bs.length := Blocks.length_join bs
  have hpos : 0 < bs.length := length_pos_iff.mpr hbs
  have hne : rest.length ≠ 0 := fun h => hrest (eq_nil_of_length_eq_zero h)
  have hlen : (f.buffer ++ d).length = 16 * bs.length + rest.length := by
    rw [hsplit, length_append, hjoin]
  have hkept : (f.buffer ++ d).length % 16 = rest.length := by omega
  have hleft : (f.buffer ++ d).length - rest.length = (Blocks.join bs).length := by omega
  cases d with
  | nil => exact absurd rfl hd
  | cons x d =>
    unfold Filter.call
    rw [if_neg (by simp [hopen])]
    dsimp only
    rw [if_neg (by omega), hkept, LuaString.sub_to _ (by omega), LuaString.sub_last _ (by omega),
      if_neg hne, hleft, hsplit, take_left, drop_left, encrypt, blocks,
      Blocks.cut_join _ (by omega)]
    have h33 := LuaString.sub_from (header (if (Blocks.join bs).length % 16 = 0 then 0 else 1) ++
      f.oaes.iv.toList ++ Blocks.join (f.oaes.cipher.chaining.chain f.oaes.iv bs)) 32
    refine congrArg (fun out => some (_, some out)) (h33.trans ?_)
    refine drop_left' ?_
    rw [length_append, Vector.length_toList]
    rfl

theorem call_whole (hd : d ≠ []) (h : 16 ∣ (f.buffer ++ d).length) :
    ∃ oaes out, f.call (some d) = some (⟨oaes, f.buffer ++ d, false⟩, some out) ∧
      out.length = (f.buffer ++ d).length := by
  have hpos : 0 < (f.buffer ++ d).length := by
    rw [length_append]
    have := length_pos_iff.mpr hd
    omega
  obtain ⟨bs, hbs⟩ := Blocks.exists_join h
  cases d with
  | nil => exact absurd rfl hd
  | cons x d =>
    unfold Filter.call
    rw [if_neg (by simp [hopen])]
    dsimp only
    have hzero : (f.buffer ++ x :: d).length % 16 = 0 := by omega
    rw [if_neg (by omega), hzero, LuaString.sub_to _ (Nat.zero_le _),
      LuaString.sub_last _ (Nat.zero_le _), if_pos rfl, Nat.sub_zero, take_length]
    refine ⟨_, _, rfl, ?_⟩
    have h33 := LuaString.sub_from (encrypt f.oaes (f.buffer ++ x :: d)).1 32
    refine (congrArg List.length h33).trans ?_
    rw [length_drop, encrypt, length_append, length_append, Vector.length_toList,
      Blocks.length_join, BlockCipher.length_chain, ← Blocks.length_join,
      join_blocks h]
    exact Nat.add_sub_cancel_left 32 _

theorem call_nil (h : f.buffer.length < 16) :
    ∃ f', f.call none = some (f', some (encrypted f.oaes f.buffer)) := by
  have hn : (16 - (f.buffer.length : Int)).toNat = 16 - f.buffer.length := by omega
  have hmod : f.buffer.length % 16 = f.buffer.length := Nat.mod_eq_of_lt h
  unfold Filter.call
  rw [if_neg (by simp [hopen])]
  dsimp only
  rw [if_pos (by omega), hn]
  refine ⟨_, congrArg (fun out => some (_, some out)) ((LuaString.sub_from _ 32).trans ?_)⟩
  rw [encrypted, padding, hmod]
  refine drop_left' ?_
  rw [length_append, Vector.length_toList]
  rfl

theorem call_nil_eq_none (h : 16 ≤ f.buffer.length) : f.call none = none := by
  unfold Filter.call
  rw [if_neg (by simp [hopen])]
  exact if_neg (by omega)

end

/-! ## Data that never end at a block -/

theorem Ragged.nil (buffer : Bytes) : Ragged buffer [] := by
  intro cs hcs hne
  rw [prefix_nil.mp hcs] at hne
  exact absurd rfl hne

variable {chunks : List Bytes}

theorem Ragged.head {buffer d : Bytes} (h : Ragged buffer (d :: chunks))
    (hd : d ≠ []) : ¬ 16 ∣ (buffer ++ d).length := by
  have hone := h [d] ⟨chunks, rfl⟩ (by simpa using hd)
  simpa using hone

theorem ragged_congr {a b : Bytes} (h : a.length % 16 = b.length % 16) :
    Ragged a chunks ↔ Ragged b chunks := by
  have hdvd : ∀ cs : List Bytes, 16 ∣ (a ++ cs.flatten).length ↔ 16 ∣ (b ++ cs.flatten).length := by
    intro cs
    rw [length_append, length_append]
    omega
  exact forall_congr' fun cs => imp_congr_right fun _ => imp_congr_right fun _ => not_congr (hdvd cs)

theorem ragged_cons {buffer d : Bytes} (hd : d ≠ [])
    (hhead : ¬ 16 ∣ (buffer ++ d).length) :
    Ragged buffer (d :: chunks) ↔ Ragged (buffer ++ d) chunks := by
  constructor
  · intro h cs hcs hne
    have hboth := h (d :: cs) (cons_prefix_cons.mpr ⟨rfl, hcs⟩) (by simp [hd])
    rw [flatten_cons, ← append_assoc] at hboth
    exact hboth
  · intro h cs hcs hne
    cases cs with
    | nil => exact absurd rfl hne
    | cons e cs =>
      obtain ⟨rfl, htail⟩ := cons_prefix_cons.mp hcs
      rw [flatten_cons, ← append_assoc]
      by_cases hnil : cs.flatten = []
      · rw [hnil, append_nil]
        exact hhead
      · exact h cs htail hnil

theorem ragged_cons_nil {buffer : Bytes} :
    Ragged buffer ([] :: chunks) ↔ Ragged buffer chunks := by
  constructor
  · intro h cs hcs hne
    exact h ([] :: cs) (cons_prefix_cons.mpr ⟨rfl, hcs⟩) hne
  · intro h cs hcs hne
    cases cs with
    | nil => exact absurd rfl hne
    | cons e cs =>
      obtain ⟨rfl, htail⟩ := cons_prefix_cons.mp hcs
      exact h cs htail hne

theorem encrypted_join_append (ctx : Ctx) (bs : List Block) (text : Bytes) :
    encrypted ctx (Blocks.join bs ++ text) =
      Blocks.join (ctx.cipher.chaining.chain ctx.iv bs) ++
        encrypted { ctx with iv := ctx.cipher.chaining.next ctx.iv bs } text := by
  have hlen : (Blocks.join bs).length = 16 * bs.length := Blocks.length_join bs
  have hpad : padding (Blocks.join bs ++ text).length = padding text.length := by
    rw [padding, padding, length_append, hlen, Nat.mul_add_mod]
  rw [encrypted, encrypted, hpad, append_assoc, blocks_append (by omega), blocks,
    Blocks.cut_join _ (by omega), BlockCipher.chain_append, Blocks.join_append]

theorem exists_split {m : Bytes} (h : ¬ 16 ∣ m.length) :
    ∃ (bs : List Block) (rest : Bytes), m = Blocks.join bs ++ rest ∧ rest ≠ [] ∧ rest.length < 16 := by
  obtain ⟨bs, hbs⟩ := Blocks.exists_join (n := 16) (m := m.take (m.length - m.length % 16))
    (by rw [length_take]; omega)
  refine ⟨bs, m.drop (m.length - m.length % 16), ?_, ?_, ?_⟩
  · rw [← hbs, take_append_drop]
  · intro hnil
    have hlen := congrArg List.length hnil
    rw [length_drop, length_nil] at hlen
    omega
  · rw [length_drop]
    omega

variable {f : Filter}

/-- What is sent is the encryption of the bytes in the buffer and those of the chunks. -/
theorem feed_ragged (hopen : f.lastsent = false)
    (hlt : f.buffer.length < 16) (h : Ragged f.buffer chunks) :
    f.feed (chunks.map some ++ [none]) = some (encrypted f.oaes (f.buffer ++ chunks.flatten)) := by
  induction chunks generalizing f with
  | nil =>
    obtain ⟨f', hcall⟩ := call_nil hopen hlt
    simp [Filter.feed, hcall]
  | cons d chunks ih =>
    rw [map_cons, cons_append, Filter.feed, flatten_cons]
    by_cases hd : d = []
    · subst hd
      rw [call_empty hopen]
      dsimp only [bind, Option.bind]
      rw [ih hopen hlt (ragged_cons_nil.mp h)]
      rfl
    · have hhead := h.head hd
      have hrest := (ragged_cons hd hhead).mp h
      rw [← append_assoc]
      rcases Nat.lt_or_ge (f.buffer ++ d).length 16 with hshort | hlong
      · rw [call_short hopen hd hshort]
        dsimp only [bind, Option.bind]
        rw [ih (f := { f with buffer := f.buffer ++ d }) hopen hshort hrest]
        rfl
      · obtain ⟨bs, rest, hsplit, hne, hfew⟩ := exists_split hhead
        have hbs : bs ≠ [] := by
          rintro rfl
          rw [hsplit] at hlong
          exact absurd hlong (Nat.not_le.mpr hfew)
        have hmod : (f.buffer ++ d).length % 16 = rest.length % 16 := by
          rw [hsplit, length_append, Blocks.length_join, Nat.mul_add_mod]
        rw [call_blocks hopen hd hsplit hbs hne hfew]
        dsimp only [bind, Option.bind]
        rw [ih rfl hfew ((ragged_congr hmod).mp hrest), hsplit, append_assoc,
          encrypted_join_append]
        rfl

/-! ## Data that end at a block -/

/-- What a call that does not fail leaves to send: all the bytes are sent or kept, and a whole block
more when the data end at a block. -/
theorem call_some (hopen : f.lastsent = false) (d : Bytes) :
    ∃ f' out, f.call (some d) = some (f', some out) ∧ f'.lastsent = false ∧
      (f.buffer ++ d).length ≤ out.length + f'.buffer.length ∧
      f'.buffer.length % 16 = (f.buffer ++ d).length % 16 ∧
      (d ≠ [] → 16 ∣ (f.buffer ++ d).length →
        (f.buffer ++ d).length + 16 ≤ out.length + f'.buffer.length) := by
  by_cases hd : d = []
  · subst hd
    refine ⟨f, [], call_empty hopen, hopen, ?_, ?_, fun hne => absurd rfl hne⟩
    · simp
    · simp
  · have hpos : 0 < (f.buffer ++ d).length := by
      rw [length_append]
      have := length_pos_iff.mpr hd
      omega
    by_cases hwhole : 16 ∣ (f.buffer ++ d).length
    · obtain ⟨oaes, out, hcall, hout⟩ := call_whole hopen hd hwhole
      refine ⟨_, out, hcall, rfl, ?_, rfl, fun _ _ => ?_⟩
      · omega
      · show _ ≤ out.length + (f.buffer ++ d).length
        omega
    · rcases Nat.lt_or_ge (f.buffer ++ d).length 16 with hshort | hlong
      · exact ⟨_, [], call_short hopen hd hshort, hopen, Nat.le_add_left _ _, rfl,
          fun _ h => absurd h hwhole⟩
      · obtain ⟨bs, rest, hsplit, hne, hfew⟩ := exists_split hwhole
        have hbs : bs ≠ [] := by
          rintro rfl
          rw [hsplit] at hlong
          exact absurd hlong (Nat.not_le.mpr hfew)
        refine ⟨_, _, call_blocks hopen hd hsplit hbs hne hfew, rfl, ?_, ?_,
          fun _ h => absurd h hwhole⟩
        · rw [hsplit, length_append, Blocks.length_join, Blocks.length_join,
            BlockCipher.length_chain]
        · rw [hsplit, length_append, Blocks.length_join, Nat.mul_add_mod]

/-- A filter that does not fail sends all it is given, and some padding; and a block twice when the
data have ended at one. -/
theorem le_length_feed (hopen : f.lastsent = false) {out : Bytes}
    (h : f.feed (chunks.map some ++ [none]) = some out) :
    (f.buffer ++ chunks.flatten).length + 1 ≤ out.length ∧
      (¬ Ragged f.buffer chunks → (f.buffer ++ chunks.flatten).length + 17 ≤ out.length) := by
  induction chunks generalizing f out with
  | nil =>
    refine ⟨?_, fun hnot => absurd (Ragged.nil _) hnot⟩
    rcases Nat.lt_or_ge f.buffer.length 16 with hlt | hge
    · obtain ⟨f', hcall⟩ := call_nil hopen hlt
      have hout : encrypted f.oaes f.buffer = out := by
        simpa [Filter.feed, hcall] using h
      rw [← hout, length_encrypted, flatten_nil, append_nil]
      omega
    · simp [Filter.feed, call_nil_eq_none hopen hge] at h
  | cons d chunks ih =>
    obtain ⟨f', sent, hcall, hopen', hkept, hmod, hwhole⟩ := call_some hopen d
    rw [map_cons, cons_append, Filter.feed, hcall] at h
    replace h : (f'.feed (chunks.map some ++ [none])).bind (fun results => some (sent ++ results)) =
      some out := h
    obtain ⟨results, hfeed, hout⟩ := Option.bind_eq_some_iff.mp h
    obtain rfl : sent ++ results = out := Option.some.inj hout
    obtain ⟨hall, htwice⟩ := ih hopen' hfeed
    rw [flatten_cons, ← append_assoc]
    rw [length_append] at hall htwice
    rw [@length_append _ (f.buffer ++ d), @length_append _ sent]
    refine ⟨by omega, fun hnot => ?_⟩
    by_cases hd : d = []
    · have hnot' : ¬ Ragged f'.buffer chunks := by
        subst hd
        rw [ragged_cons_nil] at hnot
        rw [append_nil] at hmod
        exact fun hragged => hnot ((ragged_congr hmod).mp hragged)
      have := htwice hnot'
      omega
    · by_cases hends : 16 ∣ (f.buffer ++ d).length
      · have := hwhole hd hends
        omega
      · have hnot' : ¬ Ragged f'.buffer chunks := by
          rw [ragged_cons hd hends] at hnot
          exact fun hragged => hnot ((ragged_congr hmod).mp hragged)
        have := htwice hnot'
        omega

/-- The filter gives the encryption of the whole text, from which the text is decrypted, if and only
if no chunk with data in it ends at a multiple of 16 bytes. -/
theorem filter_encrypts (env : Env) (nonce : Bytes) (keyidx : Nat) (chunks : List Bytes) :
    Correct env nonce keyidx chunks ↔ Ragged [] chunks := by
  constructor
  · rintro ⟨f, out, hf, hfeed, hout, -⟩
    obtain rfl := (Except.ok.inj hf).symm
    by_contra hnot
    have hlen := (le_length_feed rfl hfeed).2 hnot
    rw [hout, length_encrypted, nil_append] at hlen
    omega
  · intro h
    refine ⟨_, _, rfl, feed_ragged rfl (by simp) h, rfl, ?_⟩
    exact decryptFunction_encrypted env nonce keyidx chunks.flatten

def identity : Env where
  cipher _ _ := ⟨id, id, fun _ => rfl⟩
  md5 _ := Vector.replicate 16 0

/-- A whole block is sent and kept: the end of the data fails, and with one more byte the block is
sent twice. -/
theorem whole_block_kept :
    let f : Filter := ⟨⟨identity.cipher [] 1, identity.md5 []⟩, [], false⟩
    let block : Bytes := List.replicate 16 1
    f.feed [some block, none] = none ∧
      (f.feed [some block, some [2], none]).map List.length = some 48 ∧
      ¬ Correct identity [] 1 [block] ∧ ¬ Correct identity [] 1 [block, [2]] := by
  have hfails : Filter.feed ⟨⟨identity.cipher [] 1, identity.md5 []⟩, [], false⟩
      [some (List.replicate 16 1), none] = none := by decide
  have htwice : (Filter.feed ⟨⟨identity.cipher [] 1, identity.md5 []⟩, [], false⟩
      [some (List.replicate 16 1), some [2], none]).map List.length = some 48 := by decide +kernel
  refine ⟨hfails, htwice, ?_, ?_⟩
  · rintro ⟨f, out, hf, hfeed, -⟩
    obtain rfl := (Except.ok.inj hf).symm
    cases hfails.symm.trans hfeed
  · rintro ⟨f, out, hf, hfeed, hout, -⟩
    obtain rfl := (Except.ok.inj hf).symm
    have hlen := congrArg (Option.map List.length) hfeed
    rw [hout, Option.map_some, length_encrypted] at hlen
    cases htwice.symm.trans hlen

end Mihini.Crypto
