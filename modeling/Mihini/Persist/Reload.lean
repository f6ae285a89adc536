import Mihini.Persist.Replay

/-!
# A table is what is loaded from its file

An assignment appends a record to the file or rewrites it; either way, what is loaded from the
file is a copy of what the table holds.
-/

open Mihini.Lib Mihini.LuaToBin List

namespace Mihini.Persist

variable {φ : Type} {c : Chunks φ}

/-! ## One record more -/

section Append

variable {frame bytes sk sv : Bytes} {h : Heap φ} {k v : Value} {d : Decoder φ} {s : Content}

theorem serialize_ok (hser : serialize c h v = .ok bytes) :
    ∃ e, serializeValue c h 3998 v .init = .ok (bytes, e) := by
  unfold serialize at hser
  obtain ⟨⟨b, e⟩, hv, hser⟩ := bind_ok hser
  cases hser
  exact ⟨e, hv⟩

theorem read_appended (frame : Bytes)
    (hload : ∀ f s, c.dump f = some s → c.load s = .ok f) (hser : serialize c h v = .ok bytes) (hn : Narrow h v) (mem : Memory φ) {room : Nat}
    (hroom : 7996 ≤ room) :
    ∃ w d', deserializeValue c (frame ++ bytes) room (.start mem frame.length) = .ok (w, d') ∧
      d'.index = (frame ++ bytes).length ∧ mem.fresh ≤ d'.fresh ∧
      (∀ a, a < mem.fresh → d'.heap a = mem.heap a) ∧
      IsomorphicIn mem.fresh d'.fresh h d'.heap v w := by
  obtain ⟨e, hser⟩ := serialize_ok hser
  have hat : At (frame ++ bytes) (Decoder.start mem frame.length).index (bytes ++ []) := by
    refine ⟨frame, ?_, rfl⟩
    rw [append_nil]
  obtain ⟨w, d', hread, hindex, hfresh, hold, hiso⟩ :=
    deserializeValue_eq hload hn hser rfl hat (show 2 * 3998 ≤ room by omega)
  refine ⟨w, d', hread, ?_, hfresh, hold, hiso⟩
  rw [hindex, length_append]
  rfl

theorem Content.set_lookup {s' : Content} (h : s.set k v = .ok s') :
    s'.cache.map.lookup = put s.cache.map.lookup k v := by
  unfold Content.set at h
  obtain ⟨t, ht, h⟩ := bind_ok h
  have hcache : s'.cache = t := by
    split at h
    · cases h
      rfl
    · cases h
      rfl
  rw [hcache]
  exact lookup_rawset ht

theorem Content.set_ok (hk : k.isKey = true) (s : Content) (v : Value) :
    ∃ s', s.set k v = .ok s' := by
  obtain ⟨t, ht⟩ := rawset_ok (t := s.cache) hk v
  unfold Content.set
  rw [ht, ok_bind]
  split
  · exact ⟨_, rfl⟩
  · exact ⟨_, rfl⟩

theorem Loads.nil (c : Chunks φ) : Loads c [] (.start .empty 0) .empty :=
  ⟨.refl, rfl⟩

/-- The copies that loading one more record makes of its key and value. -/
theorem Loads.record (hl : Loads c frame d s)
    (hload : ∀ f s, c.dump f = some s → c.load s = .ok f)
    (hsk : serialize c h k = .ok sk) (hsv : serialize c h v = .ok sv) (hnk : Narrow h k)
    (hnv : Narrow h v) (hkey : k.isKey = true) :
    ∃ k' v' d' s', Loads c (frame ++ (sk ++ sv)) d' s' ∧ s.set k' v' = .ok s' ∧
      d.fresh ≤ d'.fresh ∧ (∀ a, a < d.fresh → d'.heap a = d.heap a) ∧
      IsomorphicIn d.fresh d'.fresh h d'.heap k k' ∧ IsomorphicIn 0 d'.fresh h d'.heap v v' := by
  obtain ⟨hsteps, hd⟩ := hl
  obtain ⟨k', d₁, hk, hindex₁, hfresh₁, hold₁, hisok⟩ :=
    read_appended frame hload hsk hnk d.toMemory (show 7996 ≤ luaiMaxCStack - 3 by decide)
  obtain ⟨v', d₂, hv, hindex₂, hfresh₂, hold₂, hisov⟩ :=
    read_appended (frame ++ sk) hload hsv hnv d₁.toMemory
      (show 7996 ≤ luaiMaxCStack - 4 by decide)
  have hk' := (deserializeValue_longer c sv _ hk).1
  rw [← hd] at hk'
  rw [← hindex₁] at hv
  rw [append_assoc] at hk' hv hindex₂
  have hkey' : k'.isKey = true := by
    rw [copy_isKey hisok]
    exact hkey
  obtain ⟨s', hset⟩ := Content.set_ok hkey' s v'
  have hnil : k' ≠ .nil := by
    intro heq
    rw [heq] at hkey'
    cases hkey'
  have hstep : LoadStep c (frame ++ (sk ++ sv)) (d, s) (.start d₂.toMemory d₂.index, s') :=
    ⟨k', v', d₁, d₂, hk', hv, hnil, hset, rfl⟩
  refine ⟨k', v', .start d₂.toMemory d₂.index, s', ⟨?_, ?_⟩, hset, ?_, ?_, ?_, ?_⟩
  · exact (hsteps.longer _).tail hstep
  · rw [hindex₂]
    rfl
  · exact Nat.le_trans hfresh₁ hfresh₂
  · intro a ha
    exact (hold₂ a (Nat.lt_of_lt_of_le ha hfresh₁)).trans (hold₁ a ha)
  · exact hisok.later (Nat.le_refl _) hfresh₂ hold₂
  · exact hisov.later (Nat.zero_le _) (Nat.le_refl _) fun _ _ => rfl

end Append

/-! ## Files and maps -/

def Holds (c : Chunks φ) (h : Heap φ) (frame : Bytes) (m : Value → Option Value) : Prop :=
  ∃ d s κ, Loads c frame d s ∧ Copy h d.heap d.fresh m s.cache.map.lookup κ

section Maps

variable {frame sk sv : Bytes} {h h₂ : Heap φ} {m : Value → Option Value} {k v : Value}

theorem holds_nil (c : Chunks φ) (h : Heap φ) : Holds c h [] fun _ => none := by
  refine ⟨.start .empty 0, .empty, id, .nil c, ?_⟩
  have hempty : Content.empty.cache.map.lookup = fun _ => none := by
    funext x
    exact AList.lookup_empty x
  rw [hempty]
  exact copy_empty _ _ _

theorem Holds.record (hh : Holds c h frame m)
    (hload : ∀ f s, c.dump f = some s → c.load s = .ok f)
    (hsk : serialize c h k = .ok sk) (hsv : serialize c h v = .ok sv) (hnk : Narrow h k)
    (hnv : Narrow h v) (hkey : k.isKey = true) (hobj : (∃ a, k = .object a) → m k = none) :
    Holds c h (frame ++ (sk ++ sv)) (put m k v) := by
  obtain ⟨d, s, κ, hl, hcopy⟩ := hh
  obtain ⟨k', v', d', s', hl', hset, hfresh, hold, hisok, hisov⟩ :=
    hl.record hload hsk hsv hnk hnv hkey
  obtain ⟨κ', hcopy'⟩ := hcopy.put hfresh hold hisok hisov hobj
  refine ⟨d', s', κ', hl', ?_⟩
  rw [Content.set_lookup hset]
  exact hcopy'

theorem Holds.congr (hh : Holds c h frame m)
    (hagree : ∀ k v, m k = some v → ∀ a,
      Reaches h k (.object a) ∨ Reaches h v (.object a) → h₂ a = h a) :
    Holds c h₂ frame m := by
  obtain ⟨d, s, κ, hl, hcopy⟩ := hh
  exact ⟨d, s, κ, hl, hcopy.congr hagree⟩

theorem Holds.load (hh : Holds c h frame m) (hlen : frame.length < 2 ^ 31) :
    ∃ content mem, load c frame .empty = .ok (content, mem) ∧
      SameMap h mem.heap m content.cache.map.lookup := by
  obtain ⟨d, s, κ, hl, hcopy⟩ := hh
  exact ⟨s, d.toMemory, hl.load_eq hlen, hcopy.sameMap⟩

end Maps

/-! ## A file that is rewritten -/

def written : List FileOp → Bytes
  | [] => []
  | .write b :: ops => b ++ written ops
  | _ :: ops => written ops

section Records

variable {h : Heap φ} {k v : Value} {ops : List FileOp}

theorem record_eq (hrec : record c h k v = .ok ops) :
    ∃ sk sv, serialize c h k = .ok sk ∧ serialize c h v = .ok sv ∧
      ops = [.write sk, .write sv] := by
  unfold record at hrec
  obtain ⟨sk, hsk, hrec⟩ := bind_ok hrec
  obtain ⟨sv, hsv, hrec⟩ := bind_ok hrec
  cases hrec
  exact ⟨sk, sv, hsk, hsv, rfl⟩

theorem record_ok (hk : Serializable c h k) (hv : Serializable c h v) :
    ∃ ops, record c h k v = .ok ops := by
  obtain ⟨sk, hsk⟩ := hk
  obtain ⟨sv, hsv⟩ := hv
  unfold record
  rw [hsk, ok_bind, hsv, ok_bind]
  exact ⟨_, rfl⟩

variable {es : List (Sigma fun _ : Value => Value)}

theorem records_ok
    (hes : ∀ e ∈ es, Serializable c h e.1 ∧ Serializable c h e.2) :
    ∃ ops, records c h es = .ok ops := by
  induction es with
  | nil => exact ⟨[], rfl⟩
  | cons e es ih =>
    obtain ⟨k, v⟩ := e
    obtain ⟨hk, hv⟩ := hes ⟨k, v⟩ mem_cons_self
    obtain ⟨ops, hrec⟩ := record_ok hk hv
    obtain ⟨rest, hrest⟩ := ih fun e he => hes e (mem_cons_of_mem _ he)
    rw [records, hrec, ok_bind, hrest, ok_bind]
    exact ⟨_, rfl⟩

def withEntries (es : List (Sigma fun _ : Value => Value)) (m : Value → Option Value) :
    Value → Option Value :=
  fun x => (es.dlookup x).or (m x)

theorem withEntries_cons {m : Value → Option Value}
    (hk : k ∉ es.keys) (hv : v ≠ .nil) :
    withEntries (⟨k, v⟩ :: es) m = withEntries es (put m k v) := by
  funext x
  unfold withEntries
  by_cases hx : x = k
  · rw [hx, dlookup_cons_eq, dlookup_eq_none.mpr hk, put, Function.update_self,
      if_neg hv]
    rfl
  · rw [dlookup_cons_ne es ⟨k, v⟩ hx, put, Function.update_of_ne hx]

/-- The records of the entries are loaded one after the other. -/
theorem Holds.records (hload : ∀ f s, c.dump f = some s → c.load s = .ok f)
    (hnodup : es.NodupKeys)
    (hes : ∀ e ∈ es, e.1.isKey = true ∧ e.2 ≠ .nil ∧ Narrow h e.1 ∧ Narrow h e.2)
    {frame : Bytes} {m : Value → Option Value} (hh : Holds c h frame m)
    (hnew : ∀ e ∈ es, m e.1 = none) (hrec : records c h es = .ok ops) :
    Holds c h (frame ++ written ops) (withEntries es m) := by
  induction es generalizing frame m ops with
  | nil =>
    cases hrec
    rw [show frame ++ written [] = frame from append_nil frame]
    exact hh
  | cons e es ih =>
    obtain ⟨k, v⟩ := e
    rw [nodupKeys_cons] at hnodup
    obtain ⟨hk, hnodup⟩ := hnodup
    obtain ⟨hkey, hnil, hnk, hnv⟩ := hes ⟨k, v⟩ mem_cons_self
    rw [Persist.records] at hrec
    obtain ⟨ops₁, hfirst, hrec⟩ := bind_ok hrec
    obtain ⟨rest, hrest, hrec⟩ := bind_ok hrec
    cases hrec
    obtain ⟨sk, sv, hsk, hsv, rfl⟩ := record_eq hfirst
    have hnone : m k = none := hnew ⟨k, v⟩ mem_cons_self
    have hput := hh.record hload hsk hsv hnk hnv hkey fun _ => hnone
    have hrestNew : ∀ e ∈ es, put m k v e.1 = none := by
      intro e he
      have hne : e.1 ≠ k := by
        intro heq
        have hmem : e.1 ∈ es.keys := mem_keys_of_mem he
        rw [heq] at hmem
        exact hk hmem
      rw [put, Function.update_of_ne hne]
      exact hnew e (mem_cons_of_mem _ he)
    have hall := ih hnodup (fun e he => hes e (mem_cons_of_mem _ he)) hput hrestNew hrest
    rw [withEntries_cons hk hnil]
    have hbytes : frame ++ (sk ++ sv) ++ written rest =
        frame ++ written ([.write sk, .write sv] ++ rest) := by
      show _ = frame ++ (sk ++ (sv ++ written rest))
      simp only [append_assoc]
    rw [← hbytes]
    exact hall

/-- Records are only written. -/
theorem run_records (hrec : records c h es = .ok ops)
    (d : Disk) : d.run ops = { d with pending := d.pending ++ written ops } := by
  induction es generalizing ops d with
  | nil =>
    cases hrec
    rw [show d.pending ++ written [] = d.pending from append_nil d.pending]
    rfl
  | cons e es ih =>
    rw [Persist.records] at hrec
    obtain ⟨ops₁, hfirst, hrec⟩ := bind_ok hrec
    obtain ⟨rest, hrest, hrec⟩ := bind_ok hrec
    cases hrec
    obtain ⟨sk, sv, -, -, rfl⟩ := record_eq hfirst
    show ((d.apply (.write sk)).apply (.write sv)).run rest = _
    rw [ih hrest]
    show Disk.mk d.flushed (d.pending ++ sk ++ sv ++ written rest) =
      ⟨d.flushed, d.pending ++ (sk ++ (sv ++ written rest))⟩
    simp only [append_assoc]

end Records

/-! ## An assignment -/

section Assign

variable {s : Store φ} {k v : Value} {pairs : Pairs}

theorem set_entry {s₁ : Content} (hset : s.content.set k v = .ok s₁) {P : Value → Value → Prop}
    (hold : ∀ k v, s.content.cache.map.lookup k = some v → P k v) (hnew : P k v)
    {e : Sigma fun _ : Value => Value} (he : e ∈ pairs.entries s₁.cache) : P e.1 e.2 := by
  obtain ⟨k₁, v₁⟩ := e
  have hlook : s₁.cache.map.lookup k₁ = some v₁ :=
    LuaTable.mem_entries_iff.mp ((pairs.perm _).mem_iff.mp he)
  have hmem : put s.content.cache.map.lookup k v k₁ = some v₁ := by
    rw [← Content.set_lookup hset]
    exact hlook
  by_cases hk : k₁ = k
  · rw [hk, put, Function.update_self] at hmem
    split at hmem
    · cases hmem
    · cases hmem
      rw [hk]
      exact hnew
  · rw [put, Function.update_of_ne hk] at hmem
    exact hold k₁ v₁ hmem

theorem recompacts_eq {s₁ : Content} (hset : s.content.set k v = .ok s₁) :
    s.recompacts k v = s₁.isWasteful := by
  unfold Store.recompacts
  rw [hset]

/-- A record is only appended for a table or a function that is not a key yet. -/
theorem Safe.new_key (hsafe : Safe c s (.assign k v pairs)) (hrec : s.recompacts k v = false)
    (hk : ∃ a, k = .object a) : s.content.cache.map.lookup k = none := by
  obtain ⟨-, -, -, -, hobj, -⟩ := hsafe
  rcases hobj hk with hnone | hrecompacts
  · exact hnone
  · rw [hrec] at hrecompacts
    cases hrecompacts

/-- What an assignment does: the file is rewritten, or a record is appended. -/
theorem assign_cases (he : Enabled c s (.assign k v pairs)) (hown : k ∉ ownFields) :
    ∃ s₁, s.content.set k v = .ok s₁ ∧
      ((s₁.isWasteful = true ∧ ∃ ops, records c s.heap (pairs.entries s₁.cache) = .ok ops ∧
        newindex c s.heap pairs s.content k v =
          .ok ({ s₁ with overridden := 0 }, .truncate :: ops) ∧
        s.assign c k v pairs =
          { s with content := { s₁ with overridden := 0 }, disk := ⟨[], written ops⟩ }) ∨
      (s₁.isWasteful = false ∧ ∃ sk sv, serialize c s.heap k = .ok sk ∧
        serialize c s.heap v = .ok sv ∧
        newindex c s.heap pairs s.content k v = .ok (s₁, [.write sk, .write sv, .flush]) ∧
        s.assign c k v pairs =
          { s with content := s₁, disk := ⟨s.disk.file ++ (sk ++ sv), []⟩ })) := by
  obtain ⟨-, hkey, hk, hv, hcache⟩ := he
  obtain ⟨s₁, hset⟩ := Content.set_ok hkey s.content v
  refine ⟨s₁, hset, ?_⟩
  by_cases hwaste : s₁.isWasteful = true
  · left
    obtain ⟨ops, hrec⟩ : ∃ ops, records c s.heap (pairs.entries s₁.cache) = .ok ops :=
      records_ok fun e he => set_entry hset hcache ⟨hk, hv⟩ he
    have hnew : newindex c s.heap pairs s.content k v =
        .ok ({ s₁ with overridden := 0 }, .truncate :: ops) := by
      unfold newindex recompact
      rw [hset, ok_bind, if_pos hwaste, hrec]
      rfl
    refine ⟨hwaste, ops, hrec, hnew, ?_⟩
    unfold Store.assign
    rw [if_neg hown, hnew]
    show { s with content := _, disk := (s.disk.apply .truncate).run ops } = _
    rw [run_records hrec]
    rfl
  · right
    obtain ⟨ops, hrec⟩ := record_ok hk hv
    obtain ⟨sk, sv, hsk, hsv, rfl⟩ := record_eq hrec
    have hnew : newindex c s.heap pairs s.content k v =
        .ok (s₁, [.write sk, .write sv, .flush]) := by
      unfold newindex
      rw [hset, ok_bind, if_neg hwaste, hrec]
      rfl
    refine ⟨by simpa using hwaste, sk, sv, hsk, hsv, hnew, ?_⟩
    unfold Store.assign
    rw [if_neg hown, hnew]
    show { s with content := s₁, disk := ⟨s.disk.flushed ++ (s.disk.pending ++ sk ++ sv), []⟩ } =
      { s with content := s₁, disk := ⟨s.disk.flushed ++ s.disk.pending ++ (sk ++ sv), []⟩ }
    simp only [append_assoc]

end Assign

/-! ## Runs -/

structure Synced (c : Chunks φ) (s : Store φ) : Prop where
  replaced : s.replaced = none
  holds : Holds c s.heap s.disk.file s.content.cache.map.lookup
  short : s.disk.file.length < 2 ^ 31
  pending : s.disk.pending = [] ∨ s.content.overridden = 0

theorem synced_empty (c : Chunks φ) (h : Heap φ) :
    Synced c ⟨.empty, h, ⟨[], []⟩, none⟩ where
  replaced := rfl
  holds := by
    have hempty : Content.empty.cache.map.lookup = fun _ => none := by
      funext x
      exact AList.lookup_empty x
    show Holds c h [] Content.empty.cache.map.lookup
    rw [hempty]
    exact holds_nil c h
  short := by
    show 0 < 2 ^ 31
    omega
  pending := Or.inl rfl

theorem withEntries_pairs (pairs : Pairs) (t : Table) :
    withEntries (pairs.entries t) (fun _ => none) = t.map.lookup := by
  have hnodup : (pairs.entries t).NodupKeys :=
    (perm_nodupKeys (pairs.perm t)).mpr t.map.nodupKeys
  funext x
  unfold withEntries
  rw [Option.or_none, perm_dlookup x hnodup (pairs.perm t)]
  rfl

section Steps

variable {s : Store φ} (hload : ∀ f s, c.dump f = some s → c.load s = .ok f)

include hload

theorem Synced.assign (hs : Synced c s) {k v : Value} {pairs : Pairs}
    (he : Enabled c s (.assign k v pairs)) (hsafe : Safe c s (.assign k v pairs)) :
    Synced c (s.assign c k v pairs) := by
  have hnone := hsafe.new_key
  obtain ⟨hown, hnk, hnv, hcache, -, hlen⟩ := hsafe
  obtain ⟨s₁, hset, ⟨hwaste, ops, hrec, -, hassign⟩ | ⟨hwaste, sk, sv, hsk, hsv, -, hassign⟩⟩ :=
    assign_cases he hown
  · rw [hassign] at hlen ⊢
    refine ⟨hs.replaced, ?_, hlen, Or.inr rfl⟩
    have hnodup : (pairs.entries s₁.cache).NodupKeys :=
      (perm_nodupKeys (pairs.perm _)).mpr s₁.cache.map.nodupKeys
    have hes : ∀ e ∈ pairs.entries s₁.cache,
        e.1.isKey = true ∧ e.2 ≠ .nil ∧ Narrow s.heap e.1 ∧ Narrow s.heap e.2 := by
      intro e he
      have hmem : s₁.cache.map.lookup e.1 = some e.2 :=
        LuaTable.mem_entries_iff.mp ((pairs.perm _).mem_iff.mp he)
      exact ⟨s₁.cache.isKey _ _ hmem, s₁.cache.ne_nil _ _ hmem,
        set_entry hset hcache ⟨hnk, hnv⟩ he⟩
    have hall := (holds_nil c s.heap).records hload hnodup hes (fun _ _ => rfl) hrec
    rw [withEntries_pairs] at hall
    exact hall
  · rw [hassign] at hlen ⊢
    refine ⟨hs.replaced, ?_, hlen, Or.inl rfl⟩
    rw [← recompacts_eq hset] at hwaste
    have hput := hs.holds.record hload hsk hsv hnk hnv he.2.1 (hnone hwaste)
    show Holds c s.heap (s.disk.file ++ (sk ++ sv) ++ []) s₁.cache.map.lookup
    rw [append_nil, Content.set_lookup hset]
    exact hput

omit hload in
theorem Synced.others (hs : Synced c s) {h : Heap φ} (he : Enabled c s (.others h)) :
    Synced c { s with heap := h } where
  replaced := hs.replaced
  holds := hs.holds.congr he.2
  short := hs.short
  pending := hs.pending

omit hload in
theorem Synced.reload (hs : Synced c s) : Synced c (s.reload c) := by
  obtain ⟨d, L, κ, hl, hcopy⟩ := hs.holds
  have heq : s.reload c = ⟨L, d.heap, ⟨s.disk.file, []⟩, none⟩ := by
    unfold Store.reload
    rw [hl.load_eq hs.short]
  have hfile : (Disk.mk s.disk.file []).file = s.disk.file := append_nil _
  rw [heq]
  refine ⟨rfl, ?_, ?_, Or.inl rfl⟩
  · show Holds c d.heap (Disk.mk s.disk.file []).file L.cache.map.lookup
    rw [hfile]
    exact ⟨d, L, id, hl, hcopy.refl⟩
  · show (Disk.mk s.disk.file []).file.length < 2 ^ 31
    rw [hfile]
    exact hs.short

theorem Synced.step (hs : Synced c s) (e : Event φ) (he : Enabled c s e) (hsafe : Safe c s e) :
    Synced c (step c s e) := by
  cases e with
  | assign k v pairs => exact hs.assign hload he hsafe
  | read => exact hs
  | empty =>
    have hempty := synced_empty c s.heap
    exact ⟨hs.replaced, hempty.holds, hempty.short, hempty.pending⟩
  | others h => exact hs.others he
  | reload => exact hs.reload

theorem synced_of_runs {h : Heap φ}
    (hruns : Runs (Persist.step c) (fun s e => Enabled c s e ∧ Safe c s e) (init h) s) :
    Synced c s :=
  hruns.invariant (fun _ e he hs => hs.step hload e he.1 he.2) (synced_empty c h)

end Steps

theorem Synced.index {s : Store φ} (hs : Synced c s) :
    s.index = s.content.cache.map.lookup := by
  funext k
  unfold Store.index
  rw [hs.replaced]

/-- In every run whose assignments keep to the limits, what is loaded from the file is what the
table holds. -/
theorem load_eq_index (c : Chunks φ) (hload : ∀ f s, c.dump f = some s → c.load s = .ok f)
    (h : Heap φ) {s : Store φ}
    (hruns : Runs (step c) (fun s e => Enabled c s e ∧ Safe c s e) (init h) s) :
    ∃ content mem, load c s.disk.file .empty = .ok (content, mem) ∧
      SameMap s.heap mem.heap s.index content.cache.map.lookup := by
  have hs := synced_of_runs hload hruns
  rw [hs.index]
  exact hs.holds.load hs.short

/-! ## A run, and an assignment to an own field -/

/-- A value that is neither a table nor a function leads to itself only. -/
theorem reaches_leaf {h : Heap φ} {v w : Value} (hv : ∀ a, v ≠ .object a) (hr : Reaches h v w) :
    w = v := by
  induction hr with
  | refl => rfl
  | tail _ hchild ih =>
    obtain ⟨a, t, rfl, -⟩ := hchild
    exact absurd ih.symm (hv a)

theorem narrow_leaf {h : Heap φ} {v : Value} (hv : ∀ a, v ≠ .object a)
    (hint : ∀ n, v = .int n → -2 ^ 31 ≤ n ∧ n < 2 ^ 31) : Narrow h v := by
  constructor
  · intro n hn
    exact hint n (reaches_leaf hv hn).symm
  · intro l hnodup hl
    have hsub : l ⊆ [v] := by
      intro w hw
      rw [reaches_leaf hv (hl w hw).1]
      exact mem_cons_self
    have hle := (hnodup.subperm hsub).length_le
    rw [length_singleton] at hle
    omega

def listed : Pairs := ⟨fun t => t.map.entries, fun _ => .refl _⟩

def nameX : Value := .string [120]

def noTables : Heap Bytes := fun _ => .table .empty

theorem serializable_nameX : Serializable plain noTables nameX := ⟨[4, 0, 1, 120], by decide⟩

theorem enabled_one : Enabled plain (init noTables) (.assign nameX (.int 1) listed) := by
  refine ⟨rfl, rfl, serializable_nameX, ⟨[7, 0, 0, 0, 1], by decide⟩, ?_⟩
  intro k v hkv
  cases hkv

theorem safe_one : Safe plain (init noTables) (.assign nameX (.int 1) listed) := by
  refine ⟨by decide, narrow_leaf (by intro a ha; cases ha) (by intro n hn; cases hn),
    narrow_leaf (by intro a ha; cases ha) ?_, ?_, ?_, by decide⟩
  · intro n hn
    cases hn
    omega
  · intro k v hkv
    cases hkv
  · intro hobj
    exact Or.inl rfl

theorem load_eq_index_one : ∃ content mem,
    load plain (([.assign nameX (.int 1) listed, .reload] : List (Event Bytes)).foldl
      (step plain) (init noTables)).disk.file .empty = .ok (content, mem) ∧
    SameMap (([.assign nameX (.int 1) listed, .reload] : List (Event Bytes)).foldl
        (step plain) (init noTables)).heap mem.heap
      (([.assign nameX (.int 1) listed, .reload] : List (Event Bytes)).foldl
        (step plain) (init noTables)).index content.cache.map.lookup := by
  apply load_eq_index plain (by intro f s hs; cases hs; rfl) noTables
  apply Along.runs
  exact ⟨⟨enabled_one, safe_one⟩, ⟨⟨rfl, trivial⟩, trivial⟩, trivial⟩

/-- After `t.__id = 5`, the field `__id` is read in the table, and it is not in the file. -/
theorem own_field_lost :
    ¬ ∀ s, Runs (step plain) (Enabled plain) (init noTables) s →
      ∃ content mem, load plain s.disk.file .empty = .ok (content, mem) ∧
        SameMap s.heap mem.heap s.index content.cache.map.lookup := by
  intro hall
  have henabled : Enabled plain (init noTables)
      (.assign (.string [95, 95, 105, 100]) (.int 5) listed) := by
    refine ⟨rfl, rfl, ⟨[4, 0, 4, 95, 95, 105, 100], by decide⟩, ⟨[7, 0, 0, 0, 5], by decide⟩, ?_⟩
    intro k v hkv
    cases hkv
  obtain ⟨content, mem, hload, κ, hkept, -⟩ := hall _ ((Runs.refl _).tail henabled)
  cases hload
  obtain ⟨-, v', hv', -⟩ := hkept (.string [95, 95, 105, 100]) (.int 5) rfl
  cases hv'

end Mihini.Persist
