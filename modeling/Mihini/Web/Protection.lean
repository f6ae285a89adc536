import Mihini.Web.Digest

/-!
# What a digest authentication lets through

The content of a protected resource is sent for the requests that carry the right digest, and for
no others.
-/

namespace Mihini.Web

open Mihini.Lib List

/-! ## The right digest -/

section

variable (md5 : Str → Str) (ha1 : Str) (nonces : Nonces) (env : Env) (get : String → Option Str)

def Issued : Prop :=
  ∃ nonce secret, get "nonce" = some nonce ∧ nonces.lookup nonce = some secret ∧
    get "opaque" = some secret

def digest : Option Str :=
  let qop := get "qop"
  let ha1 :=
    if get "algorithm" = some "MD5-sess".toList then
      hash md5 [some ha1, get "nonce", get "cnonce"]
    else some ha1
  let ha2 :=
    if qop = some "auth-int".toList then
      hash md5 [some env.method, some env.url, some (md5 env.body)]
    else hash md5 [some env.method, some env.url]
  if qop = none then hash md5 [ha1, get "nonce", ha2]
  else if qop = some "auth".toList ∨ qop = some "auth-int".toList then
    hash md5 [ha1, get "nonce", get "nc", get "cnonce", qop, ha2]
  else none

def Correct : Prop :=
  Issued nonces get ∧ ∃ response, digest md5 ha1 env get = some response ∧
    get "response" = some response

/-- The URL is that of the request, and the quality of protection is one that the server computes a
digest for, or there is a response at all. -/
def Plain : Prop :=
  get "uri" = some env.url ∧ get "qop" ≠ some "auth-int".toList ∧
    (get "qop" = none ∨ get "qop" = some "auth".toList ∨ get "response" ≠ none)

/-- The header function puts another value in the place of `ha1`. -/
def Replaces : Prop :=
  Issued nonces get ∧ get "algorithm" = some "MD5-sess".toList ∧ get "cnonce" ≠ none

end

def fields (method a : Str) (k : String) : Option Str := (auth method a).lookup k.toList

variable {md5 : Str → Str} {ha1 : Str} {nonces : Nonces} {env : Env} {get : String → Option Str}

/-! ## The header function -/

theorem hash_eq_none {l : List (Option Str)} : hash md5 l = none ↔ none ∈ l := by
  rw [hash, Option.map_eq_none_iff]
  induction l with
  | nil => exact ⟨nofun, nofun⟩
  | cons x l ih =>
    cases x with
    | none => exact ⟨fun _ => mem_cons_self, fun _ => rfl⟩
    | some x =>
      rw [mapM_cons, mem_cons, ← ih]
      show (l.mapM id).bind _ = none ↔ _
      cases l.mapM id with
      | none => exact ⟨fun _ => .inr rfl, fun _ => rfl⟩
      | some xs => exact ⟨nofun, nofun⟩

theorem fields_method (method a : Str) : fields method a "method" = some method :=
  AList.lookup_insert _

theorem issued_iff {method a : Str} :
    ((fields method a "nonce").bind nonces.lookup = none ∨
      (fields method a "nonce").bind nonces.lookup ≠ fields method a "opaque") ↔
      ¬ Issued nonces (fields method a) := by
  unfold Issued
  cases hnonce : fields method a "nonce" with
  | none =>
    constructor
    · intro _ hissued
      obtain ⟨_, _, hn, _⟩ := hissued
      nomatch hn
    · intro _
      exact .inl rfl
  | some nonce =>
    cases hissued : nonces.lookup nonce with
    | none =>
      refine ⟨fun _ ⟨n, o, hn, ho, _⟩ => ?_, fun _ => .inl hissued⟩
      rw [← Option.some.inj hn, hissued] at ho
      nomatch ho
    | some secret =>
      show nonces.lookup nonce = none ∨ nonces.lookup nonce ≠ _ ↔ _
      rw [hissued]
      constructor
      · intro h hcorrect
        obtain ⟨n, o, hn, ho, hsecret⟩ := hcorrect
        rw [← Option.some.inj hn, hissued] at ho
        rcases h with h | h
        · nomatch h
        · exact h (ho.trans hsecret.symm)
      · intro h
        right
        intro heq
        exact h ⟨nonce, secret, rfl, hissued, heq.symm⟩

def secret (md5 : Str → Str) (ha1 : Str) (get : String → Option Str) : Option Str :=
  if get "algorithm" = some "MD5-sess".toList then
    hash md5 [some ha1, get "nonce", get "cnonce"]
  else some ha1

/-- What the header function does with a request that has an authorization. -/
theorem authenticate_of_some {realm : Option Str} {fresh : Str × Str} {a : Str}
    (ha : env.authorization = some a) :
    authenticate md5 realm nonces ha1 env fresh =
    if (fields env.method a "nonce").bind nonces.lookup = none ∨
        (fields env.method a "nonce").bind nonces.lookup ≠ fields env.method a "opaque" then
      (.unauthorized "Wrong input" (nonceAuthenticateHeader nonces (challenge realm) fresh).2,
        nonces.insert fresh.1 fresh.2, ha1)
    else
      match secret md5 ha1 (fields env.method a) with
      | none => (.raised, nonces, ha1)
      | some ha1 =>
        match response md5 ha1 (fields env.method a) with
        | none => (.raised, nonces, ha1)
        | some response =>
          if response ≠ fields env.method a "response" then
            (.unauthorized "Authentication failure" (challenge realm), nonces, ha1)
          else (.passed, nonces, ha1) := by
  rw [authenticate, ha]
  rfl

theorem authenticate_cases (md5 : Str → Str) (realm : Option Str) (nonces : Nonces) (ha1 : Str)
    (fresh : Str × Str) {a : Str} (ha : env.authorization = some a) :
    (¬ Issued nonces (fields env.method a) ∧
      ∃ msg header, authenticate md5 realm nonces ha1 env fresh =
        (.unauthorized msg header, nonces.insert fresh.1 fresh.2, ha1)) ∨
    (Issued nonces (fields env.method a) ∧ secret md5 ha1 (fields env.method a) = none ∧
      authenticate md5 realm nonces ha1 env fresh = (.raised, nonces, ha1)) ∨
    ∃ next verdict, Issued nonces (fields env.method a) ∧
      secret md5 ha1 (fields env.method a) = some next ∧
      authenticate md5 realm nonces ha1 env fresh = (verdict, nonces, next) ∧
      (verdict = .passed ↔
        response md5 next (fields env.method a) = some (fields env.method a "response")) := by
  rw [authenticate_of_some ha]
  split
  · next h => exact .inl ⟨issued_iff.mp h, _, _, rfl⟩
  · next h =>
    have hissued : Issued nonces (fields env.method a) := by
      rw [issued_iff, not_not] at h
      exact h
    right
    cases hsecret : secret md5 ha1 (fields env.method a) with
    | none => exact .inl ⟨hissued, rfl, rfl⟩
    | some next =>
      right
      cases hresponse : response md5 next (fields env.method a) with
      | none =>
        refine ⟨next, .raised, hissued, rfl, by simp only [hresponse], ?_⟩
        constructor
        · rintro ⟨⟩
        · intro h
          cases hresponse.symm.trans h
      | some r =>
        by_cases hr : r = fields env.method a "response"
        · refine ⟨next, .passed, hissued, rfl, ?_, fun _ => by rw [hresponse, hr], fun _ => rfl⟩
          simp only [hresponse]
          rw [if_neg (not_not.mpr hr)]
        · refine ⟨next, .unauthorized "Authentication failure" (challenge realm), hissued, rfl, ?_,
            by rintro ⟨⟩, fun h => absurd (Option.some.inj (hresponse.symm.trans h)) hr⟩
          simp only [hresponse]
          rw [if_pos hr]

theorem secret_eq_some {next : Str} (hreplaces : ¬ Replaces nonces get)
    (hissued : Issued nonces get) (h : secret md5 ha1 get = some next) : next = ha1 := by
  unfold secret at h
  split at h
  · next hsession =>
    have hcnonce : get "cnonce" ≠ none := by
      intro hnone
      rw [show hash md5 [some ha1, get "nonce", get "cnonce"] = none from
        hash_eq_none.mpr (by rw [hnone]; exact .tail _ (.tail _ (.head _)))] at h
      nomatch h
    exact absurd ⟨hissued, hsession, hcnonce⟩ hreplaces
  · exact (Option.some.inj h).symm

theorem authenticate_ha1 (md5 : Str → Str) (realm : Option Str) (ha1 : Str) (fresh : Str × Str)
    (h : ∀ a, env.authorization = some a → ¬ Replaces nonces (fields env.method a)) :
    (authenticate md5 realm nonces ha1 env fresh).2.2 = ha1 := by
  cases ha : env.authorization with
  | none =>
    rw [authenticate, ha]
  | some a =>
    rcases authenticate_cases md5 realm nonces ha1 fresh ha with ⟨-, msg, header, heq⟩ | ⟨-, -, heq⟩ | ⟨next, v, hissued, hnext, heq, -⟩
    · rw [heq]
    · rw [heq]
    · rw [heq]
      exact secret_eq_some (h a ha) hissued hnext

theorem map_some_eq {x y : Option Str} :
    x.map some = some y ↔ ∃ r, x = some r ∧ y = some r := by
  cases x with
  | none => exact ⟨nofun, fun ⟨_, h, _⟩ => nomatch h⟩
  | some r =>
    constructor
    · intro h
      exact ⟨r, rfl, (Option.some.inj h).symm⟩
    · intro h
      obtain ⟨r', hr, hy⟩ := h
      rw [hy, ← Option.some.inj hr]
      rfl

theorem digest_of_secret (h : secret md5 ha1 get = none) : digest md5 ha1 env get = none := by
  have hsecret : (if get "algorithm" = some "MD5-sess".toList then
      hash md5 [some ha1, get "nonce", get "cnonce"] else some ha1) = none := h
  have hfirst : ∀ l, hash md5 (none :: l) = none := fun l => hash_eq_none.mpr (.head l)
  unfold digest
  simp only [hsecret, hfirst, ite_self]

/-- The digest that is computed is the right one, for a request that is plain. -/
theorem response_eq {next : Str} (hmethod : get "method" = some env.method)
    (hplain : Plain env get) (hnext : secret md5 ha1 get = some next) :
    response md5 next get = some (get "response") ↔
      ∃ r, digest md5 ha1 env get = some r ∧ get "response" = some r := by
  obtain ⟨huri, hint, hqop⟩ := hplain
  have hsecret : (if get "algorithm" = some "MD5-sess".toList then
      hash md5 [some ha1, get "nonce", get "cnonce"] else some ha1) = some next := hnext
  have hsecond : ∃ ha2, hash md5 [some env.method, some env.url] = some ha2 := ⟨_, rfl⟩
  obtain ⟨ha2, hha2⟩ := hsecond
  unfold response digest
  rw [hsecret, hmethod, huri, hha2]
  simp only [hint, if_false, reduceCtorEq, and_false, or_false]
  by_cases hnone : get "qop" = none
  · simp only [hnone, reduceCtorEq, or_true, if_true, if_false]
    exact map_some_eq
  by_cases hauth : get "qop" = some "auth".toList
  · simp only [hauth, reduceCtorEq, true_or, if_true, if_false]
    exact map_some_eq
  · have hresponse : get "response" ≠ none := (hqop.resolve_left hnone).resolve_left hauth
    simp only [hnone, hauth, if_false]
    exact ⟨fun h => absurd (Option.some.inj h).symm hresponse, fun ⟨_, h, _⟩ => nomatch h⟩

/-- Of the requests that are plain, the right ones pass. -/
theorem authenticate_passed {realm : Option Str} {fresh : Str × Str} {a : Str}
    (ha : env.authorization = some a) (hplain : Plain env (fields env.method a)) :
    (authenticate md5 realm nonces ha1 env fresh).1 = .passed ↔
      Correct md5 ha1 nonces env (fields env.method a) := by
  have hmethod := fields_method env.method a
  rcases authenticate_cases md5 realm nonces ha1 fresh ha with ⟨hissued, msg, header, heq⟩ | ⟨-, hsecret, heq⟩ |
      ⟨next, v, hissued, hnext, heq, hpassed⟩
  · rw [heq]
    exact ⟨nofun, fun h => absurd h.1 hissued⟩
  · rw [heq]
    refine ⟨nofun, fun h => ?_⟩
    obtain ⟨-, r, hr, -⟩ := h
    have hnone : digest md5 ha1 env (fields env.method a) = none := digest_of_secret hsecret
    rw [hnone] at hr
    nomatch hr
  · rw [heq]
    exact hpassed.trans ((response_eq hmethod hplain hnext).trans
      ⟨fun h => ⟨hissued, h⟩, fun h => h.2⟩)

/-! ## The header of a client -/

structure ClientField where
  key : Str
  value : Str
  quoted : Bool

namespace ClientField

def text (f : ClientField) : Str :=
  f.key ++ '=' :: (if f.quoted then '"' :: (f.value ++ ['"']) else f.value)

def Clean (f : ClientField) : Prop := ∀ c ∈ f.value, isValue c = true ∧ c ≠ '"'

instance (f : ClientField) : Decidable f.Clean :=
  List.decidableBAll (fun c => isValue c = true ∧ c ≠ '"') f.value

/-- The server finds the field; of a quoted value that is not clean it reads a part. -/
structure Readable (f : ClientField) : Prop where
  key : f.key ≠ []
  alphanum : ∀ c ∈ f.key, c.isAlphanum = true
  value : f.Clean ∨ f.quoted = true ∧ '=' ∉ f.value

end ClientField

/-- `authorization`, as a client writes it. -/
def header (fs : List ClientField) : Str :=
  "Digest ".toList ++ [',', ' '].intercalate (fs.map ClientField.text)

def sent (fs : List ClientField) (k : String) : Option Str :=
  (fs.find? fun f => f.key = k.toList).map ClientField.value

def names : List String :=
  ["nonce", "opaque", "algorithm", "cnonce", "qop", "nc", "response", "uri"]

structure Writes (fs : List ClientField) : Prop where
  nodup : (fs.map ClientField.key).Nodup
  readable : ∀ f ∈ fs, f.Readable
  clean : ∀ k ∈ names, ∀ f ∈ fs, f.key = k.toList → f.Clean

theorem scan_key {key : Str} (h : ∀ c ∈ key, c.isAlphanum = true) (k rest : Str) :
    scan (.key k) (key ++ rest) = scan (.key (k ++ key)) rest := by
  induction key generalizing k with
  | nil => rw [nil_append, append_nil]
  | cons c key ih =>
    rw [cons_append, scan, if_pos (h c (.head _)), ih fun d hd => h d (.tail _ hd),
      append_assoc]
    rfl

theorem scan_value {v : Str} (h : ∀ c ∈ v, isValue c = true ∧ c ≠ '"') (k w rest : Str) :
    scan (.value k w) (v ++ rest) = scan (.value k (w ++ v)) rest := by
  induction v generalizing w with
  | nil => rw [nil_append, append_nil]
  | cons c v ih =>
    obtain ⟨hvalue, hquote⟩ := h c (.head _)
    rw [cons_append, scan, if_pos hvalue, if_neg hquote, ih fun d hd => h d (.tail _ hd),
      append_assoc]
    rfl

theorem scan_quiet {u : Str} (h : '=' ∉ u) (k rest : Str) :
    scan (.key k) (u ++ '"' :: rest) = scan (.key []) rest := by
  induction u generalizing k with
  | nil =>
    rw [nil_append, scan, if_neg (by decide), if_neg fun hand => absurd hand.1 (by decide)]
  | cons c u ih =>
    have hu : '=' ∉ u := fun hmem => h (.tail _ hmem)
    have hc : c ≠ '=' := fun heq => h (heq ▸ .head _)
    rw [cons_append, scan]
    split
    · exact ih hu _
    · rw [if_neg fun hand => hc hand.1]
      exact ih hu _

theorem scan_value_quiet {u : Str} (h : '=' ∉ u) (k w rest : Str) :
    ∃ v, scan (.value k w) (u ++ '"' :: rest) = scan (.value k v) rest ∨
      scan (.value k w) (u ++ '"' :: rest) = (k, v) :: scan (.key []) rest := by
  induction u generalizing w with
  | nil => exact ⟨w, .inl (by rw [nil_append, scan, if_pos (by decide), if_pos rfl])⟩
  | cons c u ih =>
    have hu : '=' ∉ u := fun hmem => h (.tail _ hmem)
    rw [cons_append, scan]
    split
    · exact ih hu _
    · refine ⟨w, .inr ?_⟩
      rw [scan_quiet hu]

/-- A field, and what comes after it. -/
theorem scan_text {f : ClientField} (hf : f.Readable) (tail more : Str)
    (htail : tail = [] ∧ more = [] ∨ tail = ',' :: ' ' :: more) :
    ∃ v, scan (.key []) (f.text ++ tail) = (f.key, v) :: scan (.key []) more ∧
      (f.Clean → v = f.value) := by
  have hend : ∀ v, scan (.value f.key v) tail = (f.key, v) :: scan (.key []) more := by
    intro v
    rcases htail with ⟨rfl, rfl⟩ | rfl <;> rfl
  have hnext : scan (.key []) tail = scan (.key []) more := by
    rcases htail with ⟨rfl, rfl⟩ | rfl <;> rfl
  have hstart : ∀ rest, scan (.key []) (f.key ++ '=' :: rest) = scan (.value f.key []) rest := by
    intro rest
    rw [scan_key hf.alphanum, nil_append, scan, if_neg (by decide), if_pos ⟨rfl, hf.key⟩]
  have hquote : ∀ v rest, scan (.value f.key v) ('"' :: rest) = scan (.value f.key v) rest := by
    intro v rest
    rw [scan, if_pos (by decide), if_pos rfl]
  rw [ClientField.text, append_assoc, cons_append, hstart]
  by_cases hclean : f.Clean
  · refine ⟨f.value, ?_, fun _ => rfl⟩
    split
    · rw [cons_append, hquote, append_assoc, scan_value hclean, nil_append,
        singleton_append, hquote, hend]
    · rw [scan_value hclean, nil_append, hend]
  · obtain ⟨hquoted, hquiet⟩ := hf.value.resolve_left hclean
    obtain ⟨v, hv⟩ := scan_value_quiet hquiet f.key [] tail
    refine ⟨v, ?_, fun h => absurd h hclean⟩
    rw [if_pos hquoted, cons_append, hquote, append_assoc, singleton_append]
    rcases hv with hv | hv
    · rw [hv, hend]
    · rw [hv, hnext]

def Reads (f : ClientField) (x : Str × Str) : Prop := x.1 = f.key ∧ (f.Clean → x.2 = f.value)

variable {fs : List ClientField}

theorem scan_fields (h : ∀ f ∈ fs, f.Readable) :
    List.Forall₂ Reads fs (scan (.key []) ([',', ' '].intercalate (fs.map ClientField.text))) := by
  induction fs with
  | nil => exact .nil
  | cons f fs ih =>
    have htail := ih fun g hg => h g (.tail _ hg)
    cases fs with
    | nil =>
      obtain ⟨v, hv, hclean⟩ := scan_text (h f (.head _)) [] [] (.inl ⟨rfl, rfl⟩)
      rw [append_nil] at hv
      show List.Forall₂ Reads [f] (scan (.key []) ([',', ' '].intercalate [f.text]))
      rw [intercalate_singleton, hv]
      exact .cons ⟨rfl, hclean⟩ .nil
    | cons g fs =>
      obtain ⟨v, hv, hclean⟩ := scan_text (h f (.head _)) _ _ (.inr rfl)
      show List.Forall₂ Reads (f :: g :: fs)
        (scan (.key []) ([',', ' '].intercalate (f.text :: g.text :: fs.map ClientField.text)))
      rw [intercalate_cons_cons, append_assoc]
      show List.Forall₂ Reads _ (scan (.key []) (f.text ++ ',' :: ' ' :: _))
      rw [hv]
      exact .cons ⟨rfl, hclean⟩ htail

theorem scan_header (h : ∀ f ∈ fs, f.Readable) :
    List.Forall₂ Reads fs (scan (.key []) (header fs)) := scan_fields h

theorem reads_mem {l : List (Str × Str)} (h : List.Forall₂ Reads fs l)
    {f : ClientField} (hf : f ∈ fs) : ∃ v, (f.key, v) ∈ l ∧ (f.Clean → v = f.value) := by
  induction h with
  | nil => nomatch hf
  | cons hread _ ih =>
    rcases mem_cons.mp hf with rfl | hf
    · exact ⟨_, by rw [← hread.1]; exact .head _, hread.2⟩
    · obtain ⟨v, hv, hclean⟩ := ih hf
      exact ⟨v, .tail _ hv, hclean⟩

theorem mem_reads {l : List (Str × Str)} (h : List.Forall₂ Reads fs l)
    {x : Str × Str} (hx : x ∈ l) : ∃ f ∈ fs, x.1 = f.key ∧ (f.Clean → x.2 = f.value) := by
  induction h with
  | nil => nomatch hx
  | cons hread _ ih =>
    rcases mem_cons.mp hx with rfl | hx
    · exact ⟨_, .head _, hread⟩
    · obtain ⟨f, hf, hrest⟩ := ih hx
      exact ⟨f, .tail _ hf, hrest⟩

/-- The server has the fields of the digest as the client has sent them. -/
theorem fields_header (h : Writes fs) {k : String} (hk : k ∈ names)
    (method : Str) : fields method (header fs) k = sent fs k := by
  have hreads := scan_header h.readable
  have hmethod : k.toList ≠ "method".toList := by
    revert k
    decide
  have hclean := h.clean k hk
  rw [fields, auth, AList.lookup_insert_ne hmethod]
  unfold sent
  cases hfind : fs.find? fun f => f.key = k.toList with
  | none =>
    rw [Option.map_none]
    by_contra hne
    obtain ⟨v, hv⟩ := Option.ne_none_iff_exists'.mp hne
    rcases LuaTable.mem_of_lookup_assign hv with hmem | hempty
    · obtain ⟨f, hf, hkey, -⟩ := mem_reads hreads hmem
      exact List.find?_eq_none.mp hfind f hf (decide_eq_true hkey.symm)
    · nomatch hempty
  | some f =>
    have hf := mem_of_find?_eq_some hfind
    have hkey : f.key = k.toList := by
      have htrue := List.find?_some hfind
      exact of_decide_eq_true htrue
    obtain ⟨v, hv, -⟩ := reads_mem hreads hf
    have hsome := LuaTable.isSome_lookup_assign (t := ∅) (.inl (mem_map.mpr ⟨_, hv, hkey⟩))
    obtain ⟨w, hw⟩ := Option.isSome_iff_exists.mp hsome
    rw [hw, Option.map_some]
    rcases LuaTable.mem_of_lookup_assign hw with hmem | hempty
    · obtain ⟨g, hg, hgkey, hvalue⟩ := mem_reads hreads hmem
      have hsame : g = f :=
        inj_on_of_nodup_map h.nodup hg hf (hgkey.symm.trans hkey.symm)
      rw [hsame] at hvalue
      exact congrArg some (hvalue (hclean f hf hkey))
    · nomatch hempty

/-- What is right depends on the fields of the digest only. -/
theorem Correct.congr {get' : String → Option Str} (h : ∀ k ∈ names, get k = get' k) :
    Correct md5 ha1 nonces env get ↔ Correct md5 ha1 nonces env get' := by
  unfold Correct Issued digest
  rw [h "nonce" (by decide), h "opaque" (by decide), h "algorithm" (by decide),
    h "cnonce" (by decide), h "qop" (by decide), h "nc" (by decide), h "response" (by decide)]

/-! ## Runs -/

variable {cfg : Config}

def Sound (cfg : Config) (s : State) : Event → Prop
  | .request env read _ => ∀ r k a, cfg.route env read = .ok r → r.header = some k →
      env.authorization = some a → ¬ Replaces s.nonces (fields env.method a)
  | .expire _ => True

theorem handleRequest_ha1 {s : State} {read : Except String Unit} {fresh : Str × Str}
    (h : ∀ r k a, cfg.route env read = .ok r → r.header = some k →
      env.authorization = some a → ¬ Replaces s.nonces (fields env.method a)) :
    (handleRequest md5 cfg s env read fresh).1.ha1 = s.ha1 := by
  unfold handleRequest
  cases hroute : cfg.route env read with
  | error o => rfl
  | ok r =>
    cases hheader : r.header with
    | none => simp only [hheader]
    | some k =>
      have hha1 := authenticate_ha1 md5 (cfg.realm k) (s.ha1 k) fresh (h r k · hroute hheader)
      have hsame : Function.update s.ha1 k
          (authenticate md5 (cfg.realm k) s.nonces (s.ha1 k) env fresh).2.2 = s.ha1 := by
        rw [hha1, Function.update_eq_self]
      simp only [hheader]
      split <;> exact hsame

/-- The content of a protected resource is sent when its header function lets the request pass. -/
theorem handleRequest_content (md5 : Str → Str) (s : State) {read : Except String Unit}
    (fresh : Str × Str) {r : Resource} {k : Nat} (hroute : cfg.route env read = .ok r) (hheader : r.header = some k)
    (c : Content) :
    (handleRequest md5 cfg s env read fresh).2 = .content c ↔
      r.content.or r.first = some c ∧
        (authenticate md5 (cfg.realm k) s.nonces (s.ha1 k) env fresh).1 = .passed := by
  unfold handleRequest
  simp only [hroute, hheader]
  cases (authenticate md5 (cfg.realm k) s.nonces (s.ha1 k) env fresh).1 with
  | unauthorized error challenge => exact ⟨nofun, fun h => nomatch h.2⟩
  | raised => exact ⟨nofun, fun h => nomatch h.2⟩
  | passed =>
    show respond r = .content c ↔ _
    unfold respond
    cases r.content.or r.first with
    | none => exact ⟨nofun, fun h => nomatch h.1⟩
    | some d =>
      constructor
      · intro h
        injection h with h
        exact ⟨by rw [h], rfl⟩
      · intro h
        rw [Option.some.inj h.1]

theorem ha1_eq {s : State} (h : Runs (step md5 cfg) (Sound cfg) cfg.init s) : s.ha1 = cfg.ha1 := by
  refine h.invariant (I := fun s => s.ha1 = cfg.ha1) (fun s e he hs => ?_) rfl
  cases e with
  | expire nonce => exact hs
  | request env read fresh => exact (handleRequest_ha1 he).trans hs

/-- Whatever has been requested before, the content of a protected resource is sent for a request
whose response is its digest under the configured secret and a valid nonce, and, of the requests
that are plain, for no other one. -/
theorem digest_protects {s : State} (h : Runs (step md5 cfg) (Sound cfg) cfg.init s) {env : Env}
    {read : Except String Unit} {r : Resource} {k : Nat} (hroute : cfg.route env read = .ok r)
    (hheader : r.header = some k) (fresh : Str × Str) (c : Content) :
    (env.authorization = none → (handleRequest md5 cfg s env read fresh).2 ≠ .content c) ∧
    (∀ a, env.authorization = some a → Plain env (fields env.method a) →
      ((handleRequest md5 cfg s env read fresh).2 = .content c ↔
        r.content.or r.first = some c ∧
          Correct md5 (cfg.ha1 k) s.nonces env (fields env.method a))) ∧
    ∀ fs, env.authorization = some (header fs) → Writes fs → sent fs "uri" = some env.url →
      (sent fs "qop" = none ∨ sent fs "qop" = some "auth".toList) →
      Correct md5 (cfg.ha1 k) s.nonces env (sent fs) → r.content.or r.first = some c →
        (handleRequest md5 cfg s env read fresh).2 = .content c := by
  have hcontent := handleRequest_content md5 s fresh hroute hheader c
  have hha1 : s.ha1 k = cfg.ha1 k := congrFun (ha1_eq h) k
  have hpassed : ∀ a, env.authorization = some a → Plain env (fields env.method a) →
      ((authenticate md5 (cfg.realm k) s.nonces (s.ha1 k) env fresh).1 = .passed ↔
        Correct md5 (cfg.ha1 k) s.nonces env (fields env.method a)) := by
    intro a ha hplain
    rw [hha1]
    exact authenticate_passed ha hplain
  refine ⟨fun ha heq => ?_, fun a ha hplain => ?_, fun fs ha hwrites huri hqop hcorrect hc => ?_⟩
  · have hpass := (hcontent.mp heq).2
    rw [authenticate, ha] at hpass
    nomatch hpass
  · rw [hcontent, hpassed a ha hplain]
  · have hfields : ∀ k ∈ names, fields env.method (header fs) k = sent fs k :=
      fun k hk => fields_header hwrites hk env.method
    have hplain : Plain env (fields env.method (header fs)) := by
      unfold Plain
      rw [hfields "uri" (by decide), hfields "qop" (by decide), hfields "response" (by decide)]
      refine ⟨huri, ?_, hqop.imp_right .inl⟩
      rcases hqop with hqop | hqop <;> rw [hqop]
      · exact nofun
      · decide
    exact hcontent.mpr ⟨hc, (hpassed _ ha hplain).mpr ((Correct.congr hfields).mpr hcorrect)⟩

def onePage : Config where
  site := fun _ => some
    { content := some (.text ['x']), first := none, mimeType := false, sink := false
      header := some 0, methods := fun _ => none }
  pattern := []
  isMatch := fun _ _ => false
  realm := fun _ => none
  ha1 := fun _ => ['h']

def onePage.ask : Env := ⟨"GET".toList, "/p".toList, none, []⟩

def plainDigest (s : Str) : Str := s.filter Char.isAlphanum

def onePage.answer : List ClientField :=
  [⟨"nonce".toList, ['n'], true⟩, ⟨"opaque".toList, ['o'], true⟩, ⟨"uri".toList, "/p".toList, true⟩,
    ⟨"response".toList, "hnGETp".toList, true⟩]

theorem digest_protects_answer :
    let s := step plainDigest onePage onePage.init (.request onePage.ask (.ok ()) (['n'], ['o']))
    let right : Env := { onePage.ask with authorization := some (header onePage.answer) }
    (handleRequest plainDigest onePage s right (.ok ()) ([], [])).2 = .content (.text ['x']) := by
  let e : Event := .request onePage.ask (.ok ()) (['n'], ['o'])
  have hrun : Runs (step plainDigest onePage) (Sound onePage) onePage.init
      (step plainDigest onePage onePage.init e) :=
    (Runs.refl onePage.init).tail (e := e) fun _ _ _ _ _ => nofun
  refine (digest_protects hrun (k := 0) rfl rfl ([], []) (.text ['x'])).2.2 onePage.answer rfl ?_ rfl
    (.inl rfl) ⟨⟨['n'], ['o'], rfl, rfl, rfl⟩, "hnGETp".toList, rfl, rfl⟩ rfl
  have hclean : ∀ f ∈ onePage.answer, f.Clean := by decide
  have hkey : ∀ f ∈ onePage.answer, f.key ≠ [] ∧ f.key.all Char.isAlphanum = true := by decide
  exact ⟨by decide,
    fun f hf => ⟨(hkey f hf).1, all_eq_true.mp (hkey f hf).2, .inl (hclean f hf)⟩,
    fun _ _ f hf _ => hclean f hf⟩

/-- With a quality of protection that is not known, a request without a response passes. -/
theorem unknown_qop_passes :
    let s := step id onePage onePage.init (.request onePage.ask (.ok ()) (['n'], ['o']))
    let a := "Digest nonce=\"n\", opaque=\"o\", qop=x".toList
    (handleRequest id onePage s { onePage.ask with authorization := some a } (.ok ())
      ([], [])).2 = .content (.text ['x']) ∧
      fields onePage.ask.method a "response" = none := by
  exact ⟨rfl, rfl⟩

end Mihini.Web
