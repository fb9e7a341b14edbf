import Lox.Code.Chunk

/-!
# Looking up spans

The entries of a table of spans are looked up by halving, which finds what is there if their offsets ascend.

* `SpanTable.Ascending` : the offsets of the entries ascend;
* `SpanTable.Ascending.search_eq` : halving does not lose an entry;
* `SpanTable.Ascending.spanAt?_eq_some_iff` : what looking up an offset gives.
-/

namespace Lox

namespace SpanTable

def Ascending (t : SpanTable) : Prop :=
  (t.entries.toList.map Prod.fst).Pairwise (· < ·)

variable {t : SpanTable} {o n i j : Nat} {s : Span} {e e' : Nat × Span}

namespace Ascending

theorem lt (h : t.Ascending) (hij : i < j) (hi : t.entries[i]? = some e) (hj : t.entries[j]? = some e') :
    e.1 < e'.1 := by
  rw [← Array.getElem?_toList] at hi hj
  obtain ⟨hi', rfl⟩ := List.getElem?_eq_some_iff.mp hi
  obtain ⟨hj', rfl⟩ := List.getElem?_eq_some_iff.mp hj
  have hlt := List.pairwise_iff_getElem.mp h i j (by rwa [List.length_map]) (by rwa [List.length_map]) hij
  rwa [List.getElem_map, List.getElem_map] at hlt

theorem le (h : t.Ascending) (hij : i ≤ j) (hi : t.entries[i]? = some e) (hj : t.entries[j]? = some e') :
    e.1 ≤ e'.1 := by
  rcases Nat.eq_or_lt_of_le hij with rfl | hlt
  · exact Nat.le_of_eq (congrArg Prod.fst (Option.some.inj (hi.symm.trans hj)))
  · exact Nat.le_of_lt (h.lt hlt hi hj)

/-- Halving does not lose the entry of the offset. -/
theorem search_eq (h : t.Ascending) (hi : t.entries[i]? = some (o, s)) {base size : Nat} (hbase : base ≤ i)
    (hsize : i < base + size) (hle : base + size ≤ t.entries.size) : t.search o base size = i := by
  fun_induction search t o base size with
  | case1 base size hone => omega
  | case2 base size hmany hbehind ih =>
      have hmiddle := Array.getElem?_eq_getElem (show base + size / 2 < t.entries.size by omega)
      rw [hmiddle, Option.any_some, decide_eq_true_eq] at hbehind
      have hbefore : i < base + size / 2 :=
        Nat.lt_of_not_le fun hnot => absurd (h.le hnot hmiddle hi) (Nat.not_le_of_lt hbehind)
      exact ih hbase (by omega) (by omega)
  | case3 base size hmany hbehind ih =>
      have hmiddle := Array.getElem?_eq_getElem (show base + size / 2 < t.entries.size by omega)
      rw [hmiddle, Option.any_some, decide_eq_true_eq] at hbehind
      have hafter : base + size / 2 ≤ i := Nat.le_of_not_lt fun hnot => hbehind (h.lt hnot hi hmiddle)
      exact ih hafter (by omega) (by omega)

/-- **Looking up an offset gives the span of its entry.** -/
theorem spanAt?_eq_some_iff (h : t.Ascending) : t.spanAt? o = some s ↔ (o, s) ∈ t.entries.toList := by
  unfold spanAt?
  rw [Option.map_eq_some_iff]
  constructor
  · rintro ⟨e, he, rfl⟩
    obtain ⟨hget, hoffset⟩ := Option.filter_eq_some_iff.mp he
    rw [← Array.getElem?_toList] at hget
    rw [← beq_iff_eq.mp hoffset]
    exact List.mem_of_getElem? hget
  · intro hmem
    obtain ⟨i, hi⟩ := List.getElem?_of_mem hmem
    rw [Array.getElem?_toList] at hi
    have hlt : i < t.entries.size := (Array.getElem?_eq_some_iff.mp hi).1
    refine ⟨(o, s), ?_, rfl⟩
    rw [h.search_eq hi (Nat.zero_le i) (by omega) (by omega), hi]
    exact Option.filter_some_pos (beq_self_eq_true o)

theorem isSome_spanAt? (h : t.Ascending) (o : Nat) :
    (t.spanAt? o).isSome = true ↔ o ∈ t.entries.toList.map Prod.fst := by
  rw [Option.isSome_iff_exists, List.mem_map]
  constructor
  · rintro ⟨s, hs⟩
    exact ⟨(o, s), h.spanAt?_eq_some_iff.mp hs, rfl⟩
  · rintro ⟨e, he, rfl⟩
    exact ⟨e.2, h.spanAt?_eq_some_iff.mpr he⟩

end Ascending

theorem toList_entries_shift (t : SpanTable) (n : Nat) :
    (t.shift n).entries.toList = t.entries.toList.map fun e => (e.1 + n, e.2) :=
  Array.toList_map

theorem Ascending.shift (h : t.Ascending) (n : Nat) : (t.shift n).Ascending := by
  unfold Ascending at h ⊢
  rw [List.pairwise_map] at h
  rw [toList_entries_shift, List.map_map, List.pairwise_map]
  exact h.imp fun hlt => Nat.add_lt_add_right hlt n

end SpanTable

end Lox
