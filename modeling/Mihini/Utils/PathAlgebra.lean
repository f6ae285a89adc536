import Mathlib.Data.List.Nodup
import Mihini.Treemgr.Path

/-!
# The algebra of paths

What `clean`, `split` and `gsplit` promise about each other, and the paths on which they keep it.
-/

namespace Mihini.Path

open List

variable (canon : Str → Str)

def split (path : Str) (n : Int) : Str × Str :=
  let segs := segments canon path
  if n > segs.length then (path, [])
  else if -n > segs.length then ([], path)
  else
    let n := if n < 0 then segs.length + n else n
    (concat (segs.take n.toNat), concat (segs.drop n.toNat))

structure Algebra (path : Str) : Prop where
  idempotent : clean canon (clean canon path) = clean canon path
  first : ∀ n : Int, 0 < n → n ≤ (segments canon path).length →
    ((segments canon (split canon path n).1).length : Int) = n
  second : ∀ n : Int, n < 0 → -n ≤ (segments canon path).length →
    ((segments canon (split canon path n).2).length : Int) = -n
  long : ∀ n : Int, n > (segments canon path).length → split canon path n = (path, [])
  longNegative : ∀ n : Int, -n > (segments canon path).length → split canon path n = ([], path)
  whole : ∀ n : Int,
    clean canon (concat [(split canon path n).1, (split canon path n).2]) = clean canon path
  enumerates : gsplit canon path =
    (List.range ((segments canon (clean canon path)).length + 1)).reverse.map fun (n : Nat) =>
      split canon (clean canon path) n
  once : (gsplit canon path).Nodup
  halves : ∀ x ∈ gsplit canon path, clean canon x.1 = x.1 ∧ clean canon x.2 = x.2

variable {canon} {path : Str} {l : List Str}

theorem split_inside {n : Int} (h : n ≤ (segments canon path).length)
    (h' : -n ≤ (segments canon path).length) :
    ∃ k : Nat, (k : Int) = (if n < 0 then (segments canon path).length + n else n) ∧
      split canon path n =
        (concat ((segments canon path).take k), concat ((segments canon path).drop k)) := by
  refine ⟨(if n < 0 then (segments canon path).length + n else n).toNat, ?_, ?_⟩
  · split <;> omega
  · rw [split, if_neg (by omega), if_neg (by omega)]

theorem IsPath.algebra (h : IsPath canon path) : Algebra canon path := by
  have htake (k : Nat) : ∀ s ∈ (segments canon path).take k, Segment canon s :=
    fun s hs => h s (take_subset _ _ hs)
  have hdrop (k : Nat) : ∀ s ∈ (segments canon path).drop k, Segment canon s :=
    fun s hs => h s (drop_subset _ _ hs)
  have hclean : segments canon (clean canon path) = segments canon path := segments_concat h
  refine ⟨clean_concat h, fun n hpos hle => ?_, fun n hneg hle => ?_, fun n hn => if_pos hn,
    fun n hn => ?_, fun n => ?_, ?_, ?_, fun x hx => ?_⟩
  · obtain ⟨k, hk, hsplit⟩ := split_inside hle (by omega)
    rw [hsplit, segments_concat (htake k), length_take]
    rw [if_neg (by omega)] at hk
    omega
  · obtain ⟨k, hk, hsplit⟩ := split_inside (by omega) hle
    rw [hsplit, segments_concat (hdrop k), length_drop]
    rw [if_pos hneg] at hk
    omega
  · rw [split, if_neg (by omega), if_pos hn]
  · by_cases hlong : n > (segments canon path).length
    · rw [split, if_pos hlong, concat_right_nil]
    by_cases hlong' : -n > (segments canon path).length
    · rw [split, if_neg hlong, if_pos hlong', concat_cons_nil, concat_singleton]
    obtain ⟨k, -, hsplit⟩ := split_inside (by omega) (by omega : -n ≤ (segments canon path).length)
    rw [hsplit, ← concat_append, take_append_drop, clean_concat h, clean]
  · rw [hclean, gsplit]
    refine map_congr_left fun k hk => ?_
    have hle : k ≤ (segments canon path).length :=
      Nat.lt_succ_iff.mp (mem_range.mp (mem_reverse.mp hk))
    obtain ⟨k', hk', hsplit⟩ := @split_inside canon (clean canon path) k (by rw [hclean]; omega)
      (by omega)
    rw [if_neg (by omega)] at hk'
    rw [hsplit, hclean, Int.ofNat.inj hk']
  · refine Nodup.map_on ?_ (nodup_reverse.mpr nodup_range)
    intro i hi j hj heq
    have htakes := congrArg length (concat_inj (htake i) (htake j) (Prod.mk.inj heq).1)
    rw [length_take, length_take] at htakes
    have := mem_range.mp (mem_reverse.mp hi)
    have := mem_range.mp (mem_reverse.mp hj)
    omega
  · obtain ⟨a, b, hab, rfl⟩ := mem_gsplit.mp hx
    exact ⟨clean_concat fun s hs => h s (hab ▸ mem_append_left b hs),
      clean_concat fun s hs => h s (hab ▸ mem_append_right a hs)⟩

theorem pieces_concat (h : ∀ s ∈ l, s ≠ [] ∧ '.' ∉ s) :
    ((concat l).splitOn '.').filter (fun elt => !elt.isEmpty) = l := by
  have hid := @segments_concat l id fun s hs => ⟨(h s hs).1, (h s hs).2, rfl⟩
  rwa [segments, map_id] at hid

theorem Algebra.isPath (hcanon : Numerals canon) (h : Algebra canon path) : IsPath canon path := by
  have hread : IsPath canon (clean canon path) := isPath_of_clean hcanon h.idempotent
  have hparts : ∀ s ∈ segments canon path, [] ∉ s.splitOn '.' := by
    intro s hs
    obtain ⟨q, hq, rfl⟩ := mem_map.mp hs
    obtain ⟨hmem, hne⟩ := mem_filter.mp hq
    exact hcanon.parts q (by simpa using hne) (dotless_of_mem_splitOn hmem)
  have hne : ∀ s ∈ segments canon path, s ≠ [] := by
    rintro s hs rfl
    exact hparts [] hs (by rw [splitOn_nil]; exact mem_cons_self)
  have hdotless : ∀ s ∈ segments canon path, s ≠ [] ∧ '.' ∉ s := by
    by_cases hnil : segments canon path = []
    · rw [hnil]
      exact fun s hs => absurd hs not_mem_nil
    have hfilter : ((segments canon path).filter fun v => !v.isEmpty) = segments canon path :=
      filter_eq_self.mpr fun s hs => by simpa using hne s hs
    have hsplit : (clean canon path).splitOn '.' =
        (segments canon path).flatMap fun s => s.splitOn '.' := by
      rw [clean, concat, hfilter, splitOn_intercalate_flatMap hnil]
    have hwhole : (((clean canon path).splitOn '.').filter fun elt => !elt.isEmpty) =
        (clean canon path).splitOn '.' := by
      rw [filter_eq_self, hsplit]
      intro q hq
      obtain ⟨s, hs, hq⟩ := mem_flatMap.mp hq
      have hqne : q ≠ [] := fun heq => hparts s hs (heq ▸ hq)
      simpa using hqne
    -- the first half of `split(path, #segments)` is the clean path
    have hlen := h.first (segments canon path).length
      (Int.natCast_pos.mpr (length_pos_of_ne_nil hnil)) (Int.le_refl _)
    obtain ⟨k, hk, hhalves⟩ := @split_inside canon path (segments canon path).length
      (Int.le_refl _) (by omega)
    rw [if_neg (by omega)] at hk
    rw [hhalves, take_of_length_le (by omega), ← clean, segments, length_map, hwhole, hsplit] at hlen
    exact fun s hs => ⟨hne s hs, dotless_of_length (length_parts (by omega) s hs)⟩
  have hsame : segments canon (clean canon path) = segments canon path := by
    rw [← pieces_concat fun s hs => ⟨(hread s hs).nonempty, (hread s hs).dotless⟩]
    show filter _ ((clean canon (clean canon path)).splitOn '.') = _
    rw [h.idempotent, clean, pieces_concat hdotless]
  rw [IsPath, ← hsame]
  exact hread

/-- The promises are kept on the paths whose segments, once read, are read again as they are. -/
theorem algebra_iff (hcanon : Numerals canon) (path : Str) : Algebra canon path ↔ IsPath canon path :=
  ⟨fun h => h.isPath hcanon, fun h => h.algebra⟩

theorem algebra_dots : Algebra id "..a.b.".toList :=
  (algebra_iff numerals_id _).mpr fun s hs => by
    rw [show segments id "..a.b.".toList = [['a'], ['b']] by decide] at hs
    rcases mem_pair.mp hs with rfl | rfl <;> exact ⟨by decide, by decide, rfl⟩

/-- Two numerals, the second of which is a piece of what becomes of the first. -/
def reread (s : Str) : Str :=
  if s = "100005e-5".toList then "1.00005".toList
  else if s = "00005".toList then "5".toList
  else s

theorem clean_not_idempotent : ¬ ∀ canon, Numerals canon → ∀ path, Algebra canon path := by
  intro h
  have hnumerals : Numerals reread := by
    refine ⟨fun s hs hdot => ?_, fun s => ?_⟩
    · rw [reread]
      split_ifs
      · decide
      · decide
      · exact numerals_id.parts s hs hdot
    · rw [reread]
      split_ifs
      · exact .inr (by simp [isSpace])
      · exact .inr (by simp [isSpace])
      · exact .inl rfl
  exact absurd (h reread hnumerals "100005e-5".toList).idempotent (by decide)

end Mihini.Path
