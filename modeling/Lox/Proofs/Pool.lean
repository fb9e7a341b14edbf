import Lox.Code.Constant
import Lox.Computation
import Mathlib.Data.List.Nodup
import Mathlib.Data.List.Perm.Subperm
import Mathlib.Tactic.SplitIfs

/-!
# The constants of a pool

A pool keeps its constants three times: as bytes, by the indices of the numbers and by the indices of the strings.

* `ConstantPool.constants` : the constants in the order of their indices;
* `ConstantPool.Holds p ks` : bytes, count and indices are those of `ks`, and `ks` can be written and numbered;
* `ConstantPool.Holds.intern_eq` : what asking for a constant comes to;
* `ConstantPool.Sound` : the pool holds its constants; `ConstantPool.Sound.intern` says that it still does, and where
  the constant is then;
* `ConstantPool.DrawnFrom p ks` : the constants are some of `ks`, all of which can then be had.
-/

namespace Lox

/-- Constants as code carries them, numbered from `i` on. -/
def Constant.encodeAll (i : Nat) (ks : List Constant) : List UInt8 :=
  ((ks.zipIdx i).map fun e => e.1.encode e.2).flatten

theorem Constant.encodeAll_cons (i : Nat) (k : Constant) (ks : List Constant) :
    encodeAll i (k :: ks) = k.encode i ++ encodeAll (i + 1) ks := by
  simp [encodeAll]

theorem Constant.encodeAll_append (i : Nat) (ks ks' : List Constant) :
    encodeAll i (ks ++ ks') = encodeAll i ks ++ encodeAll (i + ks.length) ks' := by
  simp [encodeAll, List.zipIdx_append]

theorem Constant.length_le_encodeAll (i : Nat) (ks : List Constant) : ks.length ≤ (encodeAll i ks).length := by
  induction ks generalizing i with
  | nil => simp
  | cons k ks ih =>
      have := ih (i + 1)
      simp only [encodeAll_cons, encode, List.length_append, List.length_cons]
      omega

structure Constant.Storable (ks : List Constant) : Prop where
  length_le : ks.length ≤ 256
  encodable : ∀ k ∈ ks, k.encodable = true

namespace ConstantPool

/-! ## Indices -/

/-- The constants with their indices, first the numbers, then the strings. -/
def entries (p : ConstantPool) : List (Constant × UInt8) :=
  p.numbers.toList.map (fun e => (.number ⟨e.1⟩, e.2)) ++ p.strings.toList.map (fun e => (.string e.1, e.2))

def constants (p : ConstantPool) : List Constant :=
  (List.range p.count).filterMap fun i => (p.entries.find? (·.2.toNat == i)).map Prod.fst

variable {p p' : ConstantPool} {k k' : Constant} {ks ks' : List Constant} {i : UInt8} {s : Span}

theorem mem_entries : (k, i) ∈ p.entries ↔ p.index? k = some i := by
  unfold entries
  rw [List.mem_append, List.mem_map, List.mem_map]
  cases k with
  | number x =>
      rw [index?, ← Std.TreeMap.mem_toList_iff_getElem?_eq_some]
      constructor
      · rintro (⟨e, he, heq⟩ | ⟨e, -, heq⟩)
        · cases heq
          exact he
        · cases heq
      · intro hmem
        exact .inl ⟨(x.bits, i), hmem, rfl⟩
  | string t =>
      rw [index?, ← Std.TreeMap.mem_toList_iff_getElem?_eq_some]
      constructor
      · rintro (⟨e, -, heq⟩ | ⟨e, he, heq⟩)
        · cases heq
        · cases heq
          exact he
      · intro hmem
        exact .inr ⟨(t, i), hmem, rfl⟩

theorem index?_enter (p : ConstantPool) (i : UInt8) (k k' : Constant) :
    (p.enter i k).index? k' = if k = k' then some i else p.index? k' := by
  cases k with
  | number x =>
      cases k' with
      | number y =>
          obtain ⟨b⟩ := x
          obtain ⟨b'⟩ := y
          simp [enter, index?, Std.TreeMap.getElem?_insert]
      | string t => simp [enter, index?]
  | string t =>
      cases k' with
      | number y => simp [enter, index?]
      | string t' => simp [enter, index?, Std.TreeMap.getElem?_insert]

/-! ## Bytes, count and indices in step -/

/-- The pool holds these constants, in this order, and nothing else. -/
structure Holds (p : ConstantPool) (ks : List Constant) : Prop extends Constant.Storable ks where
  bytes : p.bytes.toList = Constant.encodeAll 0 ks
  count : p.count = ks.length
  index : ∀ k, p.index? k = (ks.idxOf? k).map UInt8.ofNat
  nodup : ks.Nodup

theorem holds_empty : Holds {} [] where
  bytes := rfl
  count := rfl
  index k := by cases k <;> simp [index?]
  nodup := .nil
  length_le := Nat.zero_le _
  encodable := by simp

theorem Holds.index_of_mem (h : p.Holds ks) (hk : k ∈ ks) : p.index? k = some (UInt8.ofNat (ks.idxOf k)) := by
  have hfound : ks.idxOf? k = some (ks.idxOf k) := List.findIdx?_eq_some_iff_findIdx_eq.mpr
    ⟨List.idxOf_lt_length_of_mem hk, rfl⟩
  rw [h.index, hfound, Option.map_some]

theorem Holds.index_of_notMem (h : p.Holds ks) (hk : k ∉ ks) : p.index? k = none := by
  rw [h.index, List.idxOf?_eq_none_iff.mpr hk, Option.map_none]

/-- An index names one constant. -/
theorem Holds.getElem?_of_index (h : p.Holds ks) (hi : p.index? k = some i) : ks[i.toNat]? = some k := by
  have hk : k ∈ ks := by
    by_contra hnot
    rw [h.index_of_notMem hnot] at hi
    cases hi
  have hlt := List.idxOf_lt_length_of_mem hk
  have hle := h.length_le
  rw [h.index_of_mem hk] at hi
  obtain rfl := Option.some.inj hi
  rw [UInt8.toNat_ofNat_of_lt' (Nat.lt_of_lt_of_le hlt hle), List.getElem?_idxOf hk]

theorem filterMap_range_getElem? (ks : List Constant) (n : Nat) :
    (List.range n).filterMap (fun j => ks[j]?) = ks.take n := by
  induction n with
  | zero => rfl
  | succ n ih =>
      rw [List.range_succ, List.filterMap_append, ih, List.take_add_one]
      cases h : ks[n]? <;> simp [h]

/-- The constants that a pool holds are those found by their indices. -/
theorem Holds.constants_eq (h : p.Holds ks) : p.constants = ks := by
  have hle := h.length_le
  have hat : ∀ j ∈ List.range ks.length, (p.entries.find? (·.2.toNat == j)).map Prod.fst = ks[j]? := by
    intro j hj
    have hlt : j < ks.length := List.mem_range.mp hj
    have hindex : p.index? ks[j] = some (UInt8.ofNat j) := by
      rw [h.index_of_mem (List.getElem_mem hlt), h.nodup.idxOf_getElem]
    have hsome : (p.entries.find? (·.2.toNat == j)).isSome = true := by
      rw [List.find?_isSome]
      refine ⟨_, mem_entries.mpr hindex, ?_⟩
      rw [beq_iff_eq]
      exact UInt8.toNat_ofNat_of_lt' (Nat.lt_of_lt_of_le hlt hle)
    obtain ⟨e, he⟩ := Option.isSome_iff_exists.mp hsome
    have hej : e.2.toNat = j := by simpa using List.find?_some he
    rw [he, ← hej, h.getElem?_of_index (mem_entries.mp (List.mem_of_find?_eq_some he))]
    rfl
  unfold constants
  rw [h.count, List.filterMap_congr hat, filterMap_range_getElem?, List.take_length]

/-! ## Asking for a constant -/

def added (p : ConstantPool) (k : Constant) : ConstantPool :=
  enter { p with bytes := p.bytes ++ k.encode (UInt8.ofNat p.count).toNat, count := p.count + 1 }
    (UInt8.ofNat p.count) k

theorem index?_added (p : ConstantPool) (k k' : Constant) :
    (p.added k).index? k' = if k = k' then some (UInt8.ofNat p.count) else p.index? k' := by
  unfold added
  rw [index?_enter]
  cases k' <;> rfl

theorem bytes_added (p : ConstantPool) (k : Constant) :
    (p.added k).bytes = p.bytes ++ k.encode (UInt8.ofNat p.count).toNat := by
  cases k <;> rfl

theorem count_added (p : ConstantPool) (k : Constant) : (p.added k).count = p.count + 1 := by
  cases k <;> rfl

theorem intern_of_some (h : p.index? k = some i) : intern k s p = .ok i p := by
  unfold intern
  rw [apply_bind_of_ok (apply_get p), h]
  rfl

theorem intern_of_none (h : p.index? k = none) :
    intern k s p =
      if k.encodable = false then .error (.nulInString s) p
      else if 256 ≤ p.count then .error (.tooManyConstants s) p
      else .ok (UInt8.ofNat p.count) (p.added k) := by
  unfold intern
  rw [apply_bind_of_ok (apply_get p), h]
  dsimp only
  cases k.encodable with
  | false => rfl
  | true =>
      rw [if_neg (by decide), if_neg (by decide)]
      unfold nextIndex
      by_cases hfull : 256 ≤ p.count
      · rw [if_pos hfull]
        refine apply_bind_of_error ?_
        rw [apply_bind_of_ok (apply_get p), if_pos (show capacity ≤ p.count from hfull)]
        rfl
      · rw [if_neg hfull]
        refine (apply_bind_of_ok (t := { p with count := p.count + 1 }) ?_).trans rfl
        rw [apply_bind_of_ok (apply_get p), if_neg (show ¬capacity ≤ p.count from hfull)]
        rfl

/-- A new constant keeps bytes, count and indices in step. -/
theorem Holds.add (h : p.Holds ks) (hk : k ∉ ks) (hencodable : k.encodable = true) (hlt : ks.length < 256) :
    (p.added k).Holds (ks ++ [k]) where
  bytes := by
    rw [bytes_added, h.count, UInt8.toNat_ofNat_of_lt' hlt, Array.toList_appendList, h.bytes, Constant.encodeAll_append,
      Nat.zero_add, Constant.encodeAll_cons]
    simp [Constant.encodeAll]
  count := by rw [count_added, h.count, List.length_append, List.length_singleton]
  index k' := by
    rw [index?_added, h.count]
    split_ifs with heq
    · subst heq
      have hfound : (ks ++ [k]).idxOf? k = some ks.length := by
        rw [List.idxOf?_eq_some_iff]
        refine ⟨by simp, by simp, fun j hj => ?_⟩
        rw [List.getElem_append_left hj]
        exact fun hj' => hk (hj' ▸ List.getElem_mem hj)
      rw [hfound, Option.map_some]
    · have hsame : (ks ++ [k]).idxOf? k' = ks.idxOf? k' := by
        unfold List.idxOf?
        rw [List.findIdx?_append]
        simp [heq]
      rw [h.index, hsame]
  nodup := List.nodup_append.mpr ⟨h.nodup, List.nodup_singleton k, by
    intro a ha b hb heq
    rw [List.mem_singleton.mp hb] at heq
    exact hk (heq ▸ ha)⟩
  length_le := by
    rw [List.length_append, List.length_singleton]
    exact hlt
  encodable k' hk' := by
    rcases List.mem_append.mp hk' with hk' | hk'
    · exact h.encodable k' hk'
    · rw [List.mem_singleton.mp hk', hencodable]

/-- **What asking for a constant comes to.** A refusal leaves the pool as it was. -/
theorem Holds.intern_eq (h : p.Holds ks) (k : Constant) (s : Span) :
    intern k s p =
      if k ∈ ks then .ok (UInt8.ofNat (ks.idxOf k)) p
      else if k.encodable = false then .error (.nulInString s) p
      else if 256 ≤ ks.length then .error (.tooManyConstants s) p
      else .ok (UInt8.ofNat ks.length) (p.added k) := by
  by_cases hk : k ∈ ks
  · rw [if_pos hk, intern_of_some (h.index_of_mem hk)]
  · rw [if_neg hk, intern_of_none (h.index_of_notMem hk), h.count]

abbrev Sound (p : ConstantPool) : Prop :=
  p.Holds p.constants

theorem Holds.sound (h : p.Holds ks) : p.Sound := by
  unfold Sound
  rwa [h.constants_eq]

/-- The constant is in the pool behind, at the index that is given, and all constants that were there before keep
their index. -/
theorem Sound.intern (hp : p.Sound) (h : intern k s p = .ok i p') :
    p.constants <+: p'.constants ∧ k ∈ p'.constants ∧ i = UInt8.ofNat (p'.constants.idxOf k) ∧ p'.Sound := by
  rw [hp.intern_eq] at h
  split_ifs at h with hk hencodable hfull
  · cases h
    exact ⟨List.prefix_refl _, hk, rfl, hp⟩
  · cases h
    have hholds := hp.add hk (Bool.not_eq_false _ ▸ hencodable) (Nat.lt_of_not_le hfull)
    rw [hholds.constants_eq]
    refine ⟨List.prefix_append _ _, by simp, ?_, hholds.sound⟩
    rw [List.idxOf_append_of_notMem hk, List.idxOf_cons_self, Nat.add_zero]

/-! ## Constants of a larger store -/

/-- The pool is in step, and its constants are some of these. -/
structure DrawnFrom (p : ConstantPool) (ks : List Constant) : Prop where
  sound : p.Sound
  subset : p.constants ⊆ ks

theorem DrawnFrom.mono (h : p.DrawnFrom ks) (hks : ks ⊆ ks') : p.DrawnFrom ks' :=
  ⟨h.sound, List.Subset.trans h.subset hks⟩

theorem DrawnFrom.empty (ks : List Constant) : DrawnFrom {} ks where
  sound := holds_empty.sound
  subset := by
    rw [holds_empty.constants_eq]
    exact List.nil_subset ks

/-- A constant of the store is always granted: with it there are still no more constants than in the store. -/
theorem DrawnFrom.intern (h : p.DrawnFrom ks) (hks : Constant.Storable ks) (hk : k ∈ ks) (s : Span) :
    ∃ i p', intern k s p = .ok i p' ∧ p'.DrawnFrom ks := by
  rw [h.sound.intern_eq]
  by_cases hmem : k ∈ p.constants
  · exact ⟨_, p, if_pos hmem, h⟩
  · have hlength : p.constants.length + 1 ≤ ks.length :=
      (List.subperm_of_subset (List.nodup_cons.mpr ⟨hmem, h.sound.nodup⟩) (List.cons_subset.mpr ⟨hk, h.subset⟩)).length_le
    have hroom : ¬256 ≤ p.constants.length := by
      have := hks.length_le
      omega
    have hencodable := hks.encodable k hk
    have hholds := h.sound.add hmem hencodable (Nat.lt_of_not_le hroom)
    refine ⟨UInt8.ofNat p.constants.length, p.added k, ?_, hholds.sound, ?_⟩
    · rw [if_neg hmem, if_neg (by simp [hencodable]), if_neg hroom]
    · rw [hholds.constants_eq]
      exact List.append_subset.mpr ⟨h.subset, List.cons_subset.mpr ⟨hk, List.nil_subset _⟩⟩

end ConstantPool

end Lox
