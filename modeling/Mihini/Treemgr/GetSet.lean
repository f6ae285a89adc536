import Mihini.Lib.Run
import Mihini.Treemgr.Consistency

/-!
# Sets and gets

What the loops of `set` make of the leaves of a call, and what `get` reads after any calls of `set`.
-/

namespace Mihini.Treemgr.Access

open Mihini.Lib Mihini.Path List Option

variable {canon : Str → Str} {db : List Mount} {α : Type}

/-! ## The maps for the handlers -/

def entry (maps : Maps α) (name hpath : Str) : Option (Value α) :=
  (maps.lookup name).bind (AList.lookup hpath)

theorem entry_insert (maps : Maps α) (name hpath : Str) (v : Value α) (name' hpath' : Str) :
    entry (maps.insert name (((maps.lookup name).getD ∅).insert hpath v)) name' hpath' =
      if name' = name ∧ hpath' = hpath then some v else entry maps name' hpath' := by
  rw [entry]
  by_cases hname : name' = name
  · subst hname
    rw [AList.lookup_insert, bind_some]
    by_cases hpathEq : hpath' = hpath
    · subst hpathEq
      rw [AList.lookup_insert, if_pos ⟨rfl, rfl⟩]
    · rw [AList.lookup_insert_ne hpathEq, if_neg fun hboth => hpathEq hboth.2, entry]
      cases maps.lookup name' <;> rfl
  · rw [AList.lookup_insert_ne hname, if_neg fun hboth => hname hboth.1, entry]

theorem isSome_insert (maps : Maps α) (name : Str) (hmap : LuaTable Str (Value α)) (name' : Str) :
    ((maps.insert name hmap).lookup name').isSome ↔
      name' = name ∨ (maps.lookup name').isSome := by
  by_cases hname : name' = name
  · subst hname
    rw [AList.lookup_insert]
    simp
  · rw [AList.lookup_insert_ne hname]
    simp [hname]

theorem handlerMaps_ok (pairs : List (Str × Value α)) (maps : Maps α) :
    (∃ maps', handlerMaps canon db pairs maps = .ok maps') ↔
      ∀ x ∈ pairs, translation canon db x.1 ≠ none := by
  induction pairs generalizing maps with
  | nil =>
    constructor
    · intro _ x hx
      cases hx
    · intro _
      exact ⟨maps, rfl⟩
  | cons x rest ih =>
    rw [handlerMaps, forall_mem_cons]
    cases htranslation : translation canon db x.1 with
    | none =>
      constructor
      · rintro ⟨maps', hmaps⟩
        cases hmaps
      · intro hall
        exact absurd rfl hall.1
    | some y =>
      dsimp only
      rw [ih]
      constructor
      · intro hall
        exact ⟨some_ne_none y, hall⟩
      · intro hall
        exact hall.2

variable {pairs : List (Str × Value α)} {maps maps' : Maps α} {name hpath : Str}

/-- An entry comes from a path of the call, or was there. -/
theorem entry_handlerMaps
    (h : handlerMaps canon db pairs maps = .ok maps') {v : Value α}
    (hentry : entry maps' name hpath = some v) :
    (∃ x ∈ pairs, translation canon db x.1 = some (name, hpath) ∧ x.2 = v) ∨
      entry maps name hpath = some v := by
  induction pairs generalizing maps with
  | nil =>
    rw [Except.ok.inj h]
    exact .inr hentry
  | cons x rest ih =>
    rw [handlerMaps] at h
    cases htranslation : translation canon db x.1 with
    | none =>
      rw [htranslation] at h
      cases h
    | some y =>
      rw [htranslation] at h
      rcases ih h with ⟨z, hz, heq, hv⟩ | hold
      · exact .inl ⟨z, mem_cons_of_mem x hz, heq, hv⟩
      · rw [entry_insert] at hold
        split at hold
        · next hsame =>
          obtain ⟨rfl, rfl⟩ := hsame
          exact .inl ⟨x, mem_cons_self, htranslation, Option.some.inj hold⟩
        · exact .inr hold

theorem entry_ne_none
    (h : handlerMaps canon db pairs maps = .ok maps')
    (hsome : (∃ x ∈ pairs, translation canon db x.1 = some (name, hpath)) ∨
      entry maps name hpath ≠ none) : entry maps' name hpath ≠ none := by
  induction pairs generalizing maps with
  | nil =>
    rw [← Except.ok.inj h]
    rcases hsome with ⟨x, hx, -⟩ | hold
    · cases hx
    · exact hold
  | cons x rest ih =>
    rw [handlerMaps] at h
    cases htranslation : translation canon db x.1 with
    | none =>
      rw [htranslation] at h
      cases h
    | some y =>
      rw [htranslation] at h
      apply ih h
      rw [entry_insert]
      rcases hsome with ⟨z, hz, heq⟩ | hold
      · rcases mem_cons.mp hz with rfl | hz
        · right
          rw [htranslation] at heq
          rw [Option.some.inj heq, if_pos ⟨rfl, rfl⟩]
          exact some_ne_none _
        · exact .inl ⟨z, hz, heq⟩
      · right
        split
        · exact some_ne_none _
        · exact hold

/-- The handlers that get a map. -/
theorem isSome_handlerMaps
    (h : handlerMaps canon db pairs maps = .ok maps') (name : Str) :
    (maps'.lookup name).isSome ↔
      (∃ x ∈ pairs, ∃ hpath, translation canon db x.1 = some (name, hpath)) ∨
        (maps.lookup name).isSome := by
  induction pairs generalizing maps with
  | nil =>
    rw [Except.ok.inj h]
    simp
  | cons x rest ih =>
    rw [handlerMaps] at h
    cases htranslation : translation canon db x.1 with
    | none =>
      rw [htranslation] at h
      cases h
    | some y =>
      obtain ⟨name', hpath'⟩ := y
      rw [htranslation] at h
      rw [ih h, isSome_insert]
      constructor
      · rintro (⟨z, hz, hpath, heq⟩ | rfl | hold)
        · exact .inl ⟨z, mem_cons_of_mem x hz, hpath, heq⟩
        · exact .inl ⟨x, mem_cons_self, hpath', htranslation⟩
        · exact .inr hold
      · rintro (⟨z, hz, hpath, heq⟩ | hold)
        · rcases mem_cons.mp hz with rfl | hz
          · rw [htranslation] at heq
            exact .inr (.inl (Prod.mk.inj (Option.some.inj heq)).1.symm)
          · exact .inl ⟨z, hz, hpath, heq⟩
        · exact .inr (.inr hold)

/-- The entries are the leaves of the call, when no two of them are at odds. -/
theorem entry_iff {maps : Maps α}
    (h : handlerMaps canon db pairs ∅ = .ok maps)
    (honce : ∀ x ∈ pairs, ∀ y ∈ pairs,
      translation canon db x.1 = translation canon db y.1 → x.2 = y.2)
    {v : Value α} : entry maps name hpath = some v ↔
      ∃ x ∈ pairs, translation canon db x.1 = some (name, hpath) ∧ x.2 = v := by
  have hcome : ∀ v, entry maps name hpath = some v →
      ∃ x ∈ pairs, translation canon db x.1 = some (name, hpath) ∧ x.2 = v := by
    intro v hentry
    rcases entry_handlerMaps h hentry with hx | hold
    · exact hx
    · cases hold
  constructor
  · exact hcome v
  · rintro ⟨x, hx, heq, rfl⟩
    obtain ⟨v, hv⟩ := ne_none_iff_exists'.mp (entry_ne_none h (.inl ⟨x, hx, heq⟩))
    obtain ⟨y, hy, heq', rfl⟩ := hcome v hv
    rw [honce x hx y hy (heq.trans heq'.symm), hv]

/-! ## The stores afterwards -/

variable [DecidableEq α]

theorem callHandlers_apply (W : Stores α) (maps : Maps α) (name : Str) :
    callHandlers canon W maps name =
      match maps.lookup name with
      | none => W name
      | some hmap => ((W name).set canon hmap).1 := by
  have hloop : ∀ (es : List (Sigma fun _ : Str => LuaTable Str (Value α))), es.NodupKeys →
      ∀ W : Stores α,
      es.foldl (fun W e => Function.update W e.1 ((W e.1).set canon e.2).1) W name =
        match es.dlookup name with
        | none => W name
        | some hmap => ((W name).set canon hmap).1 := by
    intro es
    induction es with
    | nil => intro _ W; rfl
    | cons e es ih =>
      intro hnd W
      obtain ⟨hnew, hnd⟩ := nodupKeys_cons.mp hnd
      rw [foldl_cons, ih hnd]
      by_cases hname : name = e.1
      · subst hname
        rw [dlookup_eq_none.mpr hnew, dlookup_cons_eq]
        exact Function.update_self ..
      · rw [dlookup_cons_ne _ _ hname, Function.update_of_ne hname]
  exact hloop maps.entries maps.nodupKeys W

theorem lookup_callHandlers (W : Stores α) (maps : Maps α) (name hpath : Str) :
    (callHandlers canon W maps name).values.lookup hpath =
      (entry maps name hpath).or ((W name).values.lookup hpath) := by
  rw [callHandlers_apply, entry]
  cases maps.lookup name with
  | none => rfl
  | some hmap => exact RamStore.set_values (W name) hmap hpath

variable {niltoken : Value α} {W : Stores α} {c : Call α}

theorem set_of_ok {maps : Maps α} (h : handlerMaps canon db (c.pairs niltoken) ∅ = .ok maps) :
    set canon db niltoken W c = ⟨.ok (), maps, callHandlers canon W maps⟩ := by
  rw [set, h]

theorem set_of_error {msg : String} (h : handlerMaps canon db (c.pairs niltoken) ∅ = .error msg) :
    set canon db niltoken W c = ⟨.error msg, ∅, W⟩ := by
  rw [set, h]

theorem not_below {p p' : List Str} (hp : Node canon p) (hp' : Node canon p')
    (h : ¬ Below canon (concat p) (concat p') ∧ ¬ Below canon (concat p') (concat p))
    (hpre : p <+: p' ∨ p' <+: p) : p = p' := by
  have hcut : ∀ {q q' : List Str}, Node canon q → Node canon q' →
      ¬ Below canon (concat q) (concat q') → q <+: q' → q = q' := by
    rintro q q' hq hq' hnot ⟨r, rfl⟩
    cases r with
    | nil => exact (append_nil q).symm
    | cons c rest =>
      exfalso
      apply hnot
      refine ⟨c, rest, ?_⟩
      rw [segments_concat hq, segments_concat hq']
  rcases hpre with hpre | hpre
  · exact hcut hp hp' h.1 hpre
  · exact (hcut hp' hp h.2 hpre).symm

theorem Inv.callHandlers (hcanon : Numerals canon) (h : Inv canon db W)
    (hsound : Sound canon db niltoken W c) {maps : Maps α}
    (hmaps : handlerMaps canon db (c.pairs niltoken) ∅ = .ok maps) :
    Inv canon db (Access.callHandlers canon W maps) := by
  have hentry : ∀ {name hpath v}, entry maps name hpath = some v ↔
      ∃ x ∈ c.pairs niltoken, translation canon db x.1 = some (name, hpath) ∧ x.2 = v :=
    entry_iff hmaps hsound.once
  constructor
  · intro name
    rw [callHandlers_apply]
    cases hlookup : maps.lookup name with
    | none => exact h.store name
    | some hmap =>
      have hmap_entry : ∀ hpath v, hmap.lookup hpath = some v →
          ∃ x ∈ c.pairs niltoken, translation canon db x.1 = some (name, hpath) ∧ x.2 = v := by
        intro hpath v hv
        apply hentry.mp
        rw [entry, hlookup]
        exact hv
      apply (h.store name).set
      · intro hpath v hv
        obtain ⟨x, hx, heq, rfl⟩ := hmap_entry hpath v hv
        have hclean := hsound.clean x hx name hpath heq
        exact ⟨hsound.values x hx, segments canon hpath, isPath_of_clean hcanon hclean, hclean.symm⟩
      · intro p p' hp hp' hset hother
        obtain ⟨v, hv⟩ := ne_none_iff_exists'.mp hset
        obtain ⟨x, hx, heq, -⟩ := hmap_entry (concat p) v hv
        apply not_below hp hp'
        apply hsound.apart x hx name (concat p) heq
        rcases hother with hset' | hold
        · obtain ⟨v', hv'⟩ := ne_none_iff_exists'.mp hset'
          obtain ⟨y, hy, heq', -⟩ := hmap_entry (concat p') v' hv'
          exact .inr ⟨y, hy, heq'⟩
        · exact .inl hold
  · intro name hpath hne n hn heq
    rw [lookup_callHandlers] at hne
    cases hnew : entry maps name hpath with
    | none =>
      rw [hnew, none_or] at hne
      exact h.leaf name hpath hne n hn heq
    | some v =>
      obtain ⟨x, hx, htranslation, -⟩ := hentry.mp hnew
      exact hsound.leaf x hx n hn (heq.trans htranslation.symm)

theorem Inv.step (hcanon : Numerals canon) (h : Inv canon db W)
    (hok : Orderly canon db niltoken W c) : Inv canon db (step canon db niltoken W c) := by
  rw [Access.step]
  cases hmaps : handlerMaps canon db (c.pairs niltoken) ∅ with
  | error msg =>
    rw [set_of_error hmaps]
    exact h
  | ok maps =>
    rw [set_of_ok hmaps]
    exact h.callHandlers hcanon (hok ((handlerMaps_ok _ _).mp ⟨maps, hmaps⟩)) hmaps

/-! ## Statements -/

omit [DecidableEq α] in
theorem pairs_of_leaves {c c' : Call α}
    (hleaves : ∀ x, x ∈ c.leaves canon niltoken → x ∈ c'.leaves canon niltoken)
    {x : Str × Value α} (hx : x ∈ c.pairs niltoken) :
    ∃ y ∈ c'.pairs niltoken, translation canon db y.1 = translation canon db x.1 ∧ y.2 = x.2 := by
  have hmem := hleaves (segments canon x.1, x.2)
  rw [leaves_eq, leaves_eq] at hmem
  obtain ⟨y, hy, heq⟩ := mem_map.mp (hmem (mem_map.mpr ⟨x, hx, rfl⟩))
  obtain ⟨hsegments, hvalue⟩ := Prod.mk.inj heq
  exact ⟨y, hy, translation_congr hsegments, hvalue⟩

theorem answer_ok : (set canon db niltoken W c).answer = .ok () ↔
    ∀ x ∈ c.pairs niltoken, translation canon db x.1 ≠ none := by
  rw [← handlerMaps_ok (c.pairs niltoken) ∅]
  cases hmaps : handlerMaps canon db (c.pairs niltoken) ∅ with
  | error msg =>
    rw [set_of_error hmaps]
    simp
  | ok maps =>
    rw [set_of_ok hmaps]
    simp

omit [DecidableEq α] in
theorem same_of_leaves {c c' : Call α}
    (hleaves : ∀ x, x ∈ c.leaves canon niltoken ↔ x ∈ c'.leaves canon niltoken)
    (honce : ∀ x ∈ c.pairs niltoken, ∀ y ∈ c.pairs niltoken,
      translation canon db x.1 = translation canon db y.1 → x.2 = y.2)
    (hmaps : handlerMaps canon db (c.pairs niltoken) ∅ = .ok maps)
    (hmaps' : handlerMaps canon db (c'.pairs niltoken) ∅ = .ok maps') : Same maps maps' := by
  have hto := fun {x} => @pairs_of_leaves canon db α niltoken c c' (fun x => (hleaves x).mp) x
  have hfrom := fun {x} => @pairs_of_leaves canon db α niltoken c' c (fun x => (hleaves x).mpr) x
  have honce' : ∀ x ∈ c'.pairs niltoken, ∀ y ∈ c'.pairs niltoken,
      translation canon db x.1 = translation canon db y.1 → x.2 = y.2 := by
    intro x hx y hy heq
    obtain ⟨x', hx', htx, hvx⟩ := hfrom hx
    obtain ⟨y', hy', hty, hvy⟩ := hfrom hy
    rw [← hvx, ← hvy]
    exact honce x' hx' y' hy' (htx.trans (heq.trans hty.symm))
  intro name
  constructor
  · rw [Bool.eq_iff_iff, isSome_handlerMaps hmaps, isSome_handlerMaps hmaps']
    constructor
    · rintro (⟨x, hx, hpath, heq⟩ | hold)
      · obtain ⟨y, hy, htranslation, -⟩ := hto hx
        exact .inl ⟨y, hy, hpath, htranslation.trans heq⟩
      · exact .inr hold
    · rintro (⟨x, hx, hpath, heq⟩ | hold)
      · obtain ⟨y, hy, htranslation, -⟩ := hfrom hx
        exact .inl ⟨y, hy, hpath, htranslation.trans heq⟩
      · exact .inr hold
  · intro hpath
    apply Option.ext
    intro v
    show entry maps name hpath = some v ↔ entry maps' name hpath = some v
    rw [entry_iff hmaps honce, entry_iff hmaps' honce']
    constructor
    · rintro ⟨x, hx, heq, rfl⟩
      obtain ⟨y, hy, htranslation, hv⟩ := hto hx
      exact ⟨y, hy, htranslation.trans heq, hv⟩
    · rintro ⟨x, hx, heq, rfl⟩
      obtain ⟨y, hy, htranslation, hv⟩ := hfrom hx
      exact ⟨y, hy, htranslation.trans heq, hv⟩

theorem Inv.set_agrees (hcanon : Numerals canon) (h : Inv canon db W)
    (hok : Orderly canon db niltoken W c) : SetAgrees canon db niltoken W c := by
  cases hmaps : handlerMaps canon db (c.pairs niltoken) ∅ with
  | error msg =>
    have hset := @set_of_error canon db α _ niltoken W c msg hmaps
    have hfails : ¬ (set canon db niltoken W c).answer = .ok () := by
      rw [hset]
      nofun
    refine ⟨?_, ?_, ?_, ?_, ?_⟩
    · intro c' hleaves
      have hfails' : ¬ (set canon db niltoken W c').answer = .ok () := by
        intro hanswer
        apply hfails
        rw [answer_ok] at hanswer ⊢
        intro x hx
        obtain ⟨y, hy, htranslation, -⟩ :=
          @pairs_of_leaves canon db α niltoken c c' (fun x => (hleaves x).mp) x hx
        rw [← htranslation]
        exact hanswer y hy
      refine ⟨iff_of_false hfails hfails', ?_⟩
      cases hmaps' : handlerMaps canon db (c'.pairs niltoken) ∅ with
      | ok maps' =>
        rw [set_of_ok hmaps'] at hfails'
        exact absurd rfl hfails'
      | error msg' =>
        rw [hset, set_of_error hmaps']
        exact fun _ => ⟨rfl, fun _ => rfl⟩
    · intro x _ _
      exact ⟨msg, hset⟩
    · intro hall
      exact answer_ok.mpr hall
    · intro hanswer
      exact absurd hanswer hfails
    · intro lpath _ v
      rw [hset]
  | ok maps =>
    have hset := @set_of_ok canon db α _ niltoken W c maps hmaps
    have hall := (handlerMaps_ok (c.pairs niltoken) ∅).mp ⟨maps, hmaps⟩
    have hsound := hok hall
    have hinv : Inv canon db (Access.callHandlers canon W maps) := h.callHandlers hcanon hsound hmaps
    refine ⟨?_, ?_, ?_, ?_, ?_⟩
    · intro c' hleaves
      have hall' : ∀ x ∈ c'.pairs niltoken, translation canon db x.1 ≠ none := by
        intro x hx
        obtain ⟨y, hy, htranslation, -⟩ :=
          @pairs_of_leaves canon db α niltoken c' c (fun x => (hleaves x).mpr) x hx
        rw [← htranslation]
        exact hall y hy
      refine ⟨iff_of_true (answer_ok.mpr hall) (answer_ok.mpr hall'), ?_⟩
      obtain ⟨maps', hmaps'⟩ := (handlerMaps_ok (c'.pairs niltoken) ∅).mpr hall'
      rw [hset, set_of_ok hmaps']
      exact same_of_leaves hleaves hsound.once hmaps hmaps'
    · intro x hx hnone
      exact absurd hnone (hall x hx)
    · intro _
      exact answer_ok.mpr hall
    · intro _ x hx
      rw [hset]
      obtain ⟨⟨name, hpath⟩, htranslation⟩ := ne_none_iff_exists'.mp (hall x hx)
      apply (get_value hinv).mpr
      refine ⟨name, hpath, htranslation, ?_⟩
      rw [lookup_callHandlers, (entry_iff hmaps hsound.once).mpr ⟨x, hx, htranslation, rfl⟩]
      rfl
    · intro lpath hothers v
      rw [hset, get_value hinv, get_value h]
      apply exists_congr
      intro name
      apply exists_congr
      intro hpath
      apply and_congr_right
      intro htranslation
      rw [lookup_callHandlers]
      cases hentry : entry maps name hpath with
      | none => rw [none_or]
      | some v' =>
        obtain ⟨x, hx, heq, -⟩ := (entry_iff hmaps hsound.once).mp hentry
        exact absurd (heq.trans htranslation.symm) (hothers x hx)

/-! ## Runs -/

/-- Whatever was set, a call sets what it should, and a node is listed with its children if and only
if the handler above it, when there is one, has a variable below it. -/
theorem tree_set_get (hcanon : Numerals canon) (hpaths : ∀ m ∈ db, IsPath canon m.lpath)
    (h : Runs (step canon db niltoken) (Orderly canon db niltoken) init W) :
    (∀ c, Orderly canon db niltoken W c → SetAgrees canon db niltoken W c) ∧
      ∀ n, Node canon n → (∃ c, Child canon db W n c) →
        (Lists canon db W n ↔ Filled canon db W n) := by
  have hinv : Inv canon db W :=
    h.invariant (fun _ _ hok hinv => hinv.step hcanon hok) inv_init
  constructor
  · intro c hok
    exact hinv.set_agrees hcanon hok
  · rintro n hn ⟨c, hchild⟩
    exact hinv.lists_iff hpaths hn hchild

def ramMount : Mount := ⟨"x".toList, "ram".toList, "a".toList⟩

theorem isPath_ramMount : ∀ m ∈ [ramMount], IsPath id m.lpath := by
  intro m hm
  obtain rfl := mem_singleton.mp hm
  intro s hs
  obtain rfl : s = "x".toList := mem_singleton.mp hs
  exact ⟨by decide, by decide, rfl⟩

theorem orderly_ramMount (v : Nat) : Orderly id [ramMount] (.val 0) init
    (.prefixed "x.b".toList (.leaf (.val v))) := by
  intro _
  have hpair : ∀ x ∈ Call.pairs (.val 0) (.prefixed "x.b".toList (.leaf (.val v))),
      x = ("x.b".toList, .val v) := fun x hx => mem_singleton.mp hx
  have htranslation : translation id [ramMount] "x.b".toList = some ("ram".toList, "a.b".toList) := by
    decide
  have hone : ∀ x ∈ Call.pairs (.val 0) (.prefixed "x.b".toList (.leaf (.val v))), ∀ name hpath,
      translation id [ramMount] x.1 = some (name, hpath) →
        name = "ram".toList ∧ hpath = "a.b".toList := by
    intro x hx name hpath heq
    rw [hpair x hx, htranslation] at heq
    obtain ⟨rfl, rfl⟩ := Prod.mk.inj (Option.some.inj heq)
    exact ⟨rfl, rfl⟩
  refine ⟨?_, ?_, ?_, ?_, ?_⟩
  · intro x hx
    rw [hpair x hx]
    nofun
  · intro x hx y hy _
    rw [hpair x hx, hpair y hy]
  · intro x hx name hpath heq
    rw [(hone x hx name hpath heq).2]
    decide
  · intro x hx name hpath heq hpath' hother
    have hsame : hpath' = "a.b".toList := by
      rcases hother with hold | ⟨y, hy, heq'⟩
      · exact absurd rfl hold
      · exact (hone y hy name hpath' heq').2
    rw [(hone x hx name hpath heq).2, hsame]
    have hnot : ¬ Below id "a.b".toList "a.b".toList := by
      rintro ⟨c, rest, hsegments⟩
      have hlen := congrArg List.length hsegments
      rw [length_append, length_cons] at hlen
      omega
    exact ⟨hnot, hnot⟩
  · intro x hx n _ heq m hm c rest hnode
    rw [hpair x hx, htranslation] at heq
    obtain rfl := mem_singleton.mp hm
    have hlen := congrArg List.length hnode
    rw [length_append, length_cons] at hlen
    have hone' : (ramMount.node id).length = 1 := by decide
    obtain rfl : n = [] := length_eq_zero_iff.mp (by omega)
    exact absurd heq (by decide)

/-- After a value was set below a mount point. -/
theorem tree_set_get_one :
    let W : Stores Nat := step id [ramMount] (.val 0) init (.prefixed "x.b".toList (.leaf (.val 1)))
    (∀ c, Orderly id [ramMount] (.val 0) W c → SetAgrees id [ramMount] (.val 0) W c) ∧
      ∀ n, Node id n → (∃ c, Child id [ramMount] W n c) →
        (Lists id [ramMount] W n ↔ Filled id [ramMount] W n) := by
  intro W
  exact tree_set_get numerals_id isPath_ramMount ((Runs.refl init).tail (orderly_ramMount 1))

/-- The value `false` is written, and not read. -/
theorem false_is_lost :
    ¬ ∀ (canon : Str → Str), Numerals canon → ∀ (files : List MapFile) (db : List Mount),
      build files = .ok db → (∀ m ∈ db, IsPath canon m.lpath) → ∀ W : Stores Nat,
        Runs (step canon db (.val 0)) (fun _ _ => True) init W →
          (∀ c, SetAgrees canon db (.val 0) W c) ∧
            ∀ n, Node canon n → (∃ c, Child canon db W n c) → Lists canon db W n := by
  intro hall
  have hbuild : build [⟨"ram.map", ["treemgr ram".toList, "x=a".toList]⟩] = .ok [ramMount] := rfl
  have hset := (hall id numerals_id _ [ramMount] hbuild isPath_ramMount init (Runs.refl init)).1
    (.prefixed "x".toList (.leaf .no))
  have hread := hset.values rfl ("x".toList, .no) mem_cons_self
  cases hread

end Mihini.Treemgr.Access
