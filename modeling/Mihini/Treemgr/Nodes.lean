import Mihini.Treemgr.Access
import Mihini.Treemgr.Notifications

/-!
# The nodes of a store

The store keeps for each node that leads to a variable the names of its children.
-/

namespace Mihini.Treemgr.Access

open Mihini.Lib Mihini.Path

variable {canon : Str → Str} {α : Type}

/-! ## The prefixes of a path -/

variable {a : List Str}

theorem gsplit_snoc {c : Str} (h : Node canon (a ++ [c])) :
    gsplit canon (concat (a ++ [c])) = (concat (a ++ [c]), []) ::
      (gsplit canon (concat a)).map fun x => (x.1, concat [x.2, c]) := by
  rw [gsplit, gsplit, segments_concat h, segments_concat h.of_append.1,
    List.length_append, List.length_singleton, List.range_succ, List.reverse_append,
    List.reverse_singleton, List.singleton_append, List.map_cons, List.map_map]
  congr 1
  · rw [List.take_of_length_le (by simp), List.drop_eq_nil_of_le (by simp)]
    rfl
  · apply List.map_congr_left
    intro limit hlimit
    rw [List.mem_reverse, List.mem_range] at hlimit
    have hle : limit ≤ a.length := Nat.lt_succ_iff.mp hlimit
    rw [List.take_append_of_le_length hle, List.drop_append_of_le_length hle, concat_append,
      concat_singleton]
    rfl

/-- The paths that `set_hpath` goes through. -/
def ups (canon : Str → Str) (p : List Str) : List Str := (gsplit canon (concat p)).map Prod.fst

theorem ups_snoc {c : Str} (h : Node canon (a ++ [c])) :
    ups canon (a ++ [c]) = concat (a ++ [c]) :: ups canon a := by
  rw [ups, gsplit_snoc h, List.map_cons, List.map_map]
  rfl

/-! ## Parents and children -/

def namesOf (nlnodes : LuaTable Str (List Str)) (b : List Str) : List Str :=
  (nlnodes.lookup (concat b)).getD []

theorem namesOf_insert {nlnodes : LuaTable Str (List Str)} {a b : List Str} (ha : Node canon a)
    (hb : Node canon b) (names : List Str) :
    namesOf (nlnodes.insert (concat a) names) b = if b = a then names else namesOf nlnodes b := by
  rw [namesOf]
  split
  · next heq => rw [heq, AList.lookup_insert, Option.getD_some]
  · next hne =>
    have hpath : concat b ≠ concat a := fun heq => hne (concat_inj hb ha heq)
    rw [AList.lookup_insert_ne hpath, namesOf]

/-- From a node with the name of a child of it on. -/
theorem mem_linkChildren_some {c : Str} (h : Node canon (a ++ [c]))
    (nlnodes : LuaTable Str (List Str)) {b : List Str} (hb : Node canon b) {d : Str} :
    d ∈ namesOf (linkChildren canon (ups canon a) (some c) nlnodes) b ↔
      d ∈ namesOf nlnodes b ∨ ∃ rest, a ++ [c] = b ++ d :: rest := by
  induction a using List.reverseRecOn generalizing c nlnodes with
  | nil =>
    show d ∈ namesOf (nlnodes.insert (concat []) (c :: namesOf nlnodes [])) b ↔ _
    rw [@namesOf_insert canon nlnodes [] b (fun s hs => absurd hs List.not_mem_nil) hb]
    constructor
    · intro hd
      split at hd
      · next heq =>
        subst heq
        rcases List.mem_cons.mp hd with rfl | hd
        · exact .inr ⟨[], rfl⟩
        · exact .inl hd
      · exact .inl hd
    · rintro (hd | ⟨rest, heq⟩)
      · split
        · next heq =>
          subst heq
          exact List.mem_cons_of_mem _ hd
        · exact hd
      · cases b with
        | nil =>
          obtain ⟨rfl, -⟩ := List.cons.inj heq
          rw [if_pos rfl]
          exact List.mem_cons_self
        | cons s b =>
          have hlen := congrArg List.length heq
          simp only [List.nil_append, List.cons_append, List.length_cons, List.length_append,
            List.length_nil] at hlen
          omega
  | append_singleton a e ih =>
    have hnode : Node canon (a ++ [e]) := h.of_append.1
    rw [ups_snoc hnode, linkChildren, splitLast_snoc hnode, ih hnode]
    show d ∈ namesOf (nlnodes.insert (concat (a ++ [e])) (c :: namesOf nlnodes (a ++ [e]))) b ∨ _ ↔ _
    rw [namesOf_insert hnode hb]
    constructor
    · rintro (hd | ⟨rest, heq⟩)
      · split at hd
        · next heq =>
          subst heq
          rcases List.mem_cons.mp hd with rfl | hd
          · exact .inr ⟨[], rfl⟩
          · exact .inl hd
        · exact .inl hd
      · exact .inr ⟨rest ++ [c], by rw [heq, List.append_assoc]; rfl⟩
    · rintro (hd | ⟨rest, heq⟩)
      · left
        split
        · next heq =>
          subst heq
          exact List.mem_cons_of_mem _ hd
        · exact hd
      · rcases List.eq_nil_or_concat rest with rfl | ⟨rest, r, hrest⟩
        · obtain ⟨hb', hc⟩ := List.append_inj' heq rfl
          left
          rw [if_pos hb'.symm, (List.cons.inj hc).1]
          exact List.mem_cons_self
        · right
          refine ⟨rest, ?_⟩
          rw [hrest, List.concat_eq_append, ← List.cons_append, ← List.append_assoc] at heq
          exact (List.append_inj' heq rfl).1

theorem mem_linkChildren {p : List Str} (h : Node canon p) (nlnodes : LuaTable Str (List Str))
    {b : List Str} (hb : Node canon b) {d : Str} :
    d ∈ namesOf (linkChildren canon (ups canon p) none nlnodes) b ↔
      d ∈ namesOf nlnodes b ∨ ∃ rest, p = b ++ d :: rest := by
  rcases List.eq_nil_or_concat p with rfl | ⟨a, c, hp⟩
  · show d ∈ namesOf nlnodes b ↔ _
    simp
  · obtain rfl : p = a ++ [c] := by rw [hp, List.concat_eq_append]
    rw [ups_snoc h, linkChildren, splitLast_snoc h]
    exact mem_linkChildren_some h nlnodes hb

/-- What is listed has children, and is listed under a path in normal form. -/
theorem lookup_linkChildren {P : Str → List Str → Prop} {l : List Str} {c : Option Str}
    {nlnodes : LuaTable Str (List Str)}
    (hnew : ∀ h ∈ l, ∀ c names, P h (c :: names))
    (hold : ∀ h names, nlnodes.lookup h = some names → P h names) {h : Str} {names : List Str}
    (hlookup : (linkChildren canon l c nlnodes).lookup h = some names) : P h names := by
  induction l generalizing c nlnodes with
  | nil => exact hold h names hlookup
  | cons hpfx rest ih =>
    cases c with
    | none =>
      rw [linkChildren] at hlookup
      exact ih (fun h hh => hnew h (List.mem_cons_of_mem _ hh)) hold hlookup
    | some child =>
      rw [linkChildren] at hlookup
      apply ih (fun h hh => hnew h (List.mem_cons_of_mem _ hh)) _ hlookup
      intro h' names' hlookup'
      by_cases heq : h' = hpfx
      · subst heq
        rw [AList.lookup_insert] at hlookup'
        rw [← Option.some.inj hlookup']
        exact hnew h' List.mem_cons_self child _
      · rw [AList.lookup_insert_ne heq] at hlookup'
        exact hold h' names' hlookup'

/-! ## The store -/

/-- The variables of a store are set and in normal form, none lies above another one, and the nodes
above them are listed with their children. -/
structure StoreOk (canon : Str → Str) (s : RamStore α) : Prop where
  value : ∀ h v, s.values.lookup h = some v → v ≠ .no ∧ ∃ p, Node canon p ∧ h = concat p
  apart : ∀ p p', Node canon p → Node canon p' → s.values.lookup (concat p) ≠ none →
    s.values.lookup (concat p') ≠ none → p <+: p' → p = p'
  names : ∀ b, Node canon b → ∀ d, d ∈ namesOf s.nlnodes b ↔
    ∃ rest, Node canon (d :: rest) ∧ s.values.lookup (concat (b ++ d :: rest)) ≠ none
  lists : ∀ h names, s.nlnodes.lookup h = some names → names ≠ [] ∧ ∃ b, Node canon b ∧ h = concat b

theorem storeOk_new : StoreOk canon (RamStore.new : RamStore α) where
  value := by
    intro h v hlookup
    cases hlookup
  apart := by
    intro p p' _ _ hp
    exact absurd rfl hp
  names := by
    intro b _ d
    constructor
    · intro hd
      cases hd
    · rintro ⟨rest, -, hne⟩
      exact absurd rfl hne
  lists := by
    intro h names hlookup
    cases hlookup

variable {s : RamStore α}

theorem StoreOk.setHpath [DecidableEq α] (hs : StoreOk canon s) {p : List Str}
    (hp : Node canon p) {v : Value α} (hv : v ≠ .no)
    (hapart : ∀ p', Node canon p' → s.values.lookup (concat p') ≠ none →
      p <+: p' ∨ p' <+: p → p = p') : StoreOk canon (s.setHpath canon (concat p) v).1 := by
  have hvalue : ∀ q, Node canon q → ((s.setHpath canon (concat p) v).1.values.lookup (concat q) ≠ none
      ↔ q = p ∨ s.values.lookup (concat q) ≠ none) := by
    intro q hq
    rw [RamStore.setHpath_values]
    by_cases heq : q = p
    · simp [heq]
    · have hpath : concat q ≠ concat p := fun h => heq (concat_inj hq hp h)
      simp [heq, hpath]
  have hset : ∀ h v', (s.setHpath canon (concat p) v).1.values.lookup h = some v' →
      v' ≠ .no ∧ ∃ p, Node canon p ∧ h = concat p := by
    intro h v' hlookup
    rw [RamStore.setHpath_values] at hlookup
    split at hlookup
    · next heq =>
      rw [← Option.some.inj hlookup]
      exact ⟨hv, p, hp, heq⟩
    · exact hs.value h v' hlookup
  have hbelow : ∀ q q', Node canon q → Node canon q' →
      (s.setHpath canon (concat p) v).1.values.lookup (concat q) ≠ none →
      (s.setHpath canon (concat p) v).1.values.lookup (concat q') ≠ none → q <+: q' → q = q' := by
    intro q q' hq hq' hlq hlq' hpre
    rcases (hvalue q hq).mp hlq with rfl | hold
    · rcases (hvalue q' hq').mp hlq' with rfl | hold'
      · rfl
      · exact hapart q' hq' hold' (.inl hpre)
    · rcases (hvalue q' hq').mp hlq' with rfl | hold'
      · exact (hapart q hq hold (.inr hpre)).symm
      · exact hs.apart q q' hq hq' hold hold' hpre
  by_cases hsame : s.values.lookup (concat p) = some v
  · rw [RamStore.setHpath, if_pos hsame]
    exact hs
  have hnlnodes : (s.setHpath canon (concat p) v).1.nlnodes =
      (linkChildren canon (ups canon p) none s.nlnodes).erase (concat p) := by
    rw [RamStore.setHpath, if_neg hsame]
    rfl
  refine ⟨hset, hbelow, ?_, ?_⟩
  · intro b hb d
    rw [hnlnodes]
    by_cases heq : b = p
    · subst heq
      have hnone : namesOf ((linkChildren canon (ups canon b) none s.nlnodes).erase (concat b)) b =
          [] := by
        rw [namesOf, AList.lookup_erase]
        rfl
      rw [hnone]
      constructor
      · intro hd
        cases hd
      · rintro ⟨rest, hrest, hne⟩
        have hnode : Node canon (b ++ d :: rest) := hb.append hrest
        rcases (hvalue _ hnode).mp hne with heq | hne
        · exact absurd (congrArg List.length heq) (by simp)
        · have heq := hapart _ hnode hne (.inl (List.prefix_append b (d :: rest)))
          exact absurd (congrArg List.length heq) (by simp)
    · have hpath : concat b ≠ concat p := fun h => heq (concat_inj hb hp h)
      have hsame' : namesOf ((linkChildren canon (ups canon p) none s.nlnodes).erase (concat p)) b =
          namesOf (linkChildren canon (ups canon p) none s.nlnodes) b := by
        rw [namesOf, AList.lookup_erase_ne hpath, namesOf]
      rw [hsame', mem_linkChildren hp s.nlnodes hb, hs.names b hb]
      constructor
      · rintro (⟨rest, hrest, hne⟩ | ⟨rest, rfl⟩)
        · refine ⟨rest, hrest, ?_⟩
          rw [hvalue _ (hb.append hrest)]
          exact .inr hne
        · exact ⟨rest, hp.of_append.2, (hvalue _ hp).mpr (.inl rfl)⟩
      · rintro ⟨rest, hrest, hne⟩
        rw [hvalue _ (hb.append hrest)] at hne
        rcases hne with heq | hne
        · exact .inr ⟨rest, heq.symm⟩
        · exact .inl ⟨rest, hrest, hne⟩
  · intro h names hlookup
    rw [hnlnodes] at hlookup
    have hne : h ≠ concat p := by
      rintro rfl
      rw [AList.lookup_erase] at hlookup
      cases hlookup
    rw [AList.lookup_erase_ne hne] at hlookup
    apply @lookup_linkChildren canon (fun h names => names ≠ [] ∧ ∃ b, Node canon b ∧ h = concat b)
      _ _ _ _ hs.lists _ _ hlookup
    intro h' hh' c names'
    refine ⟨List.cons_ne_nil c names', ?_⟩
    obtain ⟨x, hx, rfl⟩ := List.mem_map.mp hh'
    obtain ⟨a, b, hab, rfl⟩ := mem_gsplit.mp hx
    rw [segments_concat hp] at hab
    exact ⟨a, (hab ▸ hp).of_append.1, rfl⟩

/-- The loop of `set`, from any store on. -/
theorem StoreOk.foldl_setHpath [DecidableEq α] {es : List (Sigma fun _ : Str => Value α)}
    {b : Bool} (hs : StoreOk canon s)
    (hset : ∀ e ∈ es, e.2 ≠ .no ∧ ∃ p, Node canon p ∧ e.1 = concat p)
    (hapart : ∀ e ∈ es, ∀ p p', Node canon p → Node canon p' → e.1 = concat p →
      (∃ e' ∈ es, e'.1 = concat p') ∨ s.values.lookup (concat p') ≠ none →
      p <+: p' ∨ p' <+: p → p = p') :
    StoreOk canon (es.foldl (fun r e =>
      let r' := r.1.setHpath canon e.1 e.2
      (r'.1, r.2 || r'.2)) (s, b)).1 := by
  induction es generalizing s b with
  | nil => exact hs
  | cons e es ih =>
    obtain ⟨hv, p, hp, hpath⟩ := hset e List.mem_cons_self
    have hok : StoreOk canon (s.setHpath canon e.1 e.2).1 := by
      rw [hpath]
      apply hs.setHpath hp hv
      intro p' hp' hlookup hpre
      exact hapart e List.mem_cons_self p p' hp hp' hpath (.inr hlookup) hpre
    rw [List.foldl_cons]
    apply ih hok fun e' he' => hset e' (List.mem_cons_of_mem _ he')
    intro e' he' q q' hq hq' hpath' hother
    apply hapart e' (List.mem_cons_of_mem _ he') q q' hq hq' hpath'
    rcases hother with ⟨e'', he'', heq⟩ | hlookup
    · exact .inl ⟨e'', List.mem_cons_of_mem _ he'', heq⟩
    · rw [RamStore.setHpath_values] at hlookup
      split at hlookup
      · next heq => exact .inl ⟨e, List.mem_cons_self, heq.symm⟩
      · exact .inr hlookup

theorem StoreOk.set [DecidableEq α] (hs : StoreOk canon s)
    {hmap : LuaTable Str (Value α)}
    (hset : ∀ h v, hmap.lookup h = some v → v ≠ .no ∧ ∃ p, Node canon p ∧ h = concat p)
    (hapart : ∀ p p', Node canon p → Node canon p' → hmap.lookup (concat p) ≠ none →
      hmap.lookup (concat p') ≠ none ∨ s.values.lookup (concat p') ≠ none →
      p <+: p' ∨ p' <+: p → p = p') : StoreOk canon (s.set canon hmap).1 := by
  have hmem : ∀ e ∈ hmap.entries, hmap.lookup e.1 = some e.2 := fun e he =>
    LuaTable.mem_entries_iff.mp he
  apply hs.foldl_setHpath
  · intro e he
    exact hset e.1 e.2 (hmem e he)
  · intro e he p p' hp hp' hpath hother
    apply hapart p p' hp hp'
    · rw [← hpath, hmem e he]
      exact Option.some_ne_none _
    · rcases hother with ⟨e', he', hpath'⟩ | hlookup
      · left
        rw [← hpath', hmem e' he']
        exact Option.some_ne_none _
      · exact .inr hlookup

theorem get_value_iff (hs : StoreOk canon s) {h : Str} {v : Value α} :
    s.get h = .value v ↔ s.values.lookup h = some v := by
  rw [RamStore.get]
  cases hlookup : s.values.lookup h with
  | none =>
    dsimp only
    split <;> simp
  | some v' =>
    obtain ⟨hv, -⟩ := hs.value h v' hlookup
    cases v' with
    | no => exact absurd rfl hv
    | val a => simp

end Mihini.Treemgr.Access
