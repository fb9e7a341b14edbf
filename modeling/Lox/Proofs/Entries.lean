import Mathlib.Data.List.TakeWhile
import Lox.Proofs.Loading

/-!
# The constants of any code

Code need not come from the compiler. Whatever its bytes are, the constants that the machine loads from it are those that
stand at its beginning.

* `Reader.Inside` : the offset of a reader stays in its code, which every decoder keeps (`Reader.byte_inside`, ...);
* `ConstantEntry.Spells` : which bytes are an entry; `ConstantEntry.read_eq_ok` and `ConstantEntry.read_of_spells` say
  that these are what is read;
* `ConstantEntry.Numbered` : entries have the indices at which they stand, so there are no more than 256 of them;
* `Execution.loadConstants_found` : what is loaded; `Execution.loadConstants_mismatch` : what stops it.
-/

namespace Lox

/-! ## Readers stay in their code -/

namespace Reader

structure Inside (r r' : Reader) : Prop where
  code : r'.code = r.code
  offset : r.offset ≤ r.code.size → r'.offset ≤ r.code.size

variable {r r' r'' : Reader} {b : UInt8}

theorem Inside.refl (r : Reader) : Inside r r :=
  ⟨rfl, id⟩

theorem Inside.trans (h : Inside r r') (h' : Inside r' r'') : Inside r r'' := by
  refine ⟨h'.code.trans h.code, fun hr => ?_⟩
  have hoffset := h'.offset
  rw [h.code] at hoffset
  exact hoffset (h.offset hr)

instance : Trans Inside Inside Inside := ⟨Inside.trans⟩

theorem Inside.skip {n : Nat} (h : r.offset ≤ r.code.size → r.offset + n ≤ r.code.size) : Inside r (r.skip n) :=
  ⟨rfl, h⟩

theorem lt_size_of_getElem? {o : Nat} (h : r.code[o]? = some b) : o < r.code.size := by
  obtain ⟨hlt, -⟩ := Array.getElem?_eq_some_iff.mp h
  exact hlt

theorem byte_inside (r : Reader) : Keeps Inside byte r := by
  unfold Keeps byte
  cases h : r.code[r.offset]? with
  | some b => exact .skip fun _ => lt_size_of_getElem? h
  | none => exact .refl r

theorem word_inside (r : Reader) : Keeps Inside word r := by
  unfold Keeps word
  cases hlow : r.code[r.offset]? with
  | none => exact .refl r
  | some low =>
      cases hhigh : r.code[r.offset + 1]? with
      | none => exact .refl r
      | some high => exact .skip fun _ => lt_size_of_getElem? hhigh

theorem signedWord_inside (r : Reader) : Keeps Inside signedWord r :=
  (word_inside r).bind fun _ r' _ => .refl r'

theorem double_inside (r : Reader) : Keeps Inside double r := by
  unfold Keeps double
  by_cases h : r.offset + 8 ≤ r.code.size
  · rw [if_pos h]
    exact .skip fun _ => h
  · rw [if_neg h]
    exact .refl r

theorem string_inside (r : Reader) : Keeps Inside string r := by
  unfold Keeps string
  dsimp only
  set rest := (r.code.extract r.offset r.code.size).toList with hrest
  have hsize : rest.length = r.code.size - r.offset := by simp [hrest]
  have htake : (rest.takeWhile (· != 0)).length ≤ rest.length := (List.takeWhile_prefix _).length_le
  by_cases hend : (rest.takeWhile (· != 0)).length = rest.length
  · rw [if_pos hend]
    exact .refl r
  · rw [if_neg hend]
    cases String.fromUTF8? (ByteArray.mk (rest.takeWhile (· != 0)).toArray) with
    | none => exact .refl r
    | some s => exact .skip fun _ => by omega

theorem opcode_inside (r : Reader) : Keeps Inside opcode r := by
  refine .bind (.refl r) fun _ r₁ _ => .bind (byte_inside r₁) fun b r₂ _ => ?_
  cases Opcode.ofByte? b <;> exact .refl r₂

theorem seek_inside (target : Int) (r : Reader) : Keeps Inside (seek target) r := by
  unfold Keeps seek
  by_cases h : 0 ≤ target ∧ target ≤ r.code.size
  · rw [if_pos h]
    exact ⟨rfl, fun _ => Int.toNat_le.mpr h.2⟩
  · rw [if_neg h]
    exact .refl r

theorem jump_inside (distance : Int) (r : Reader) : Keeps Inside (jump distance) r :=
  .bind (.refl r) fun _ r' _ => seek_inside _ r'

end Reader

theorem ConstantEntry.read_inside (r : Reader) : Keeps Reader.Inside ConstantEntry.read r := by
  refine .bind (Reader.byte_inside r) fun _ r₁ _ => .bind (Reader.byte_inside r₁) fun _ r₂ _ => ?_
  refine .bind (.refl r₂) fun _ r₃ _ => .bind (Reader.byte_inside r₃) fun tag r₄ _ => ?_
  split
  · exact .bind (Reader.double_inside r₄) fun _ r₅ _ => .refl r₅
  · split
    · exact .bind (Reader.string_inside r₄) fun _ r₅ _ => .refl r₅
    · exact .refl r₄

/-! ## What is read -/

theorem toUTF8_of_fromUTF8? {bytes : ByteArray} {s : String} (h : String.fromUTF8? bytes = some s) :
    s.toUTF8 = bytes := by
  unfold String.fromUTF8? at h
  split_ifs at h
  cases h
  rfl

theorem zero_mem_toUTF8 {s : String} (h : '\x00' ∈ s.toList) : 0 ∈ s.toUTF8.data.toList := by
  rw [toUTF8_eq_flatMap, List.mem_flatMap]
  exact ⟨'\x00', h, by decide⟩

/-- What does not pass a test for a byte other than zero begins with a zero. -/
theorem exists_dropWhile_eq_cons {bytes : List UInt8} (h : (bytes.takeWhile (· != 0)).length ≠ bytes.length) :
    ∃ bs, bytes.dropWhile (· != 0) = 0 :: bs := by
  cases hdrop : bytes.dropWhile (· != 0) with
  | nil =>
      have hsplit := @List.takeWhile_append_dropWhile _ (· != 0) bytes
      rw [hdrop, List.append_nil] at hsplit
      exact absurd (congrArg List.length hsplit) h
  | cons b bs =>
      have hnot := List.head?_dropWhile_not (· != 0) bytes
      rw [hdrop] at hnot
      exact ⟨bs, by simpa using hnot⟩

namespace Reader

variable {r r' : Reader} {b : UInt8}

theorem byte_eq_ok (h : byte r = .ok b r') : ∃ bs, r.rest = b :: bs ∧ r' = r.skip 1 := by
  unfold byte at h
  cases hb : r.code[r.offset]? with
  | none => rw [hb] at h; cases h
  | some c =>
      rw [hb] at h
      cases h
      rw [← Array.getElem?_toList] at hb
      refine ⟨r.code.toList.drop (r.offset + 1), ?_, rfl⟩
      rw [rest, List.drop_eq_getElem?_toList_append, hb]
      rfl

theorem double_eq_ok {x : Double} (h : double r = .ok x r') :
    ∃ content bs, r.rest = content ++ bs ∧ content.length = 8 ∧
      x = ⟨UInt64.ofNat (littleEndian content)⟩ ∧ r' = r.skip 8 := by
  unfold double at h
  split at h
  · cases h
    refine ⟨r.rest.take 8, r.rest.drop 8, (List.take_append_drop ..).symm, ?_, by rw [extract_eq], rfl⟩
    rw [List.length_take, rest, List.length_drop, Array.length_toList]
    omega
  · cases h

theorem string_eq_ok {s : String} (h : string r = .ok s r') :
    ∃ bs, r.rest = s.toUTF8.data.toList ++ 0 :: bs ∧ '\x00' ∉ s.toList ∧
      r' = r.skip (s.toUTF8.data.toList.length + 1) := by
  have hrest : (r.code.extract r.offset r.code.size).toList = r.rest := by
    rw [Array.toList_extract, List.extract_eq_take_drop, rest, List.take_of_length_le (by simp)]
  unfold string at h
  simp only [hrest] at h
  split_ifs at h with hend
  cases hs : String.fromUTF8? (ByteArray.mk (r.rest.takeWhile (· != 0)).toArray) with
  | none => rw [hs] at h; cases h
  | some t =>
      rw [hs] at h
      cases h
      have hbytes : s.toUTF8.data.toList = r.rest.takeWhile (· != 0) := by rw [toUTF8_of_fromUTF8? hs]
      obtain ⟨bs, hbs⟩ := exists_dropWhile_eq_cons hend
      refine ⟨bs, ?_, ?_, by rw [hbytes]; rfl⟩
      · rw [hbytes, ← hbs, List.takeWhile_append_dropWhile]
      · intro hnul
        have hzero := zero_mem_toUTF8 hnul
        rw [hbytes] at hzero
        simpa using List.mem_takeWhile_imp hzero

end Reader

/-! ## Entries -/

namespace ConstantEntry

/-- The bytes of an entry: the marker, the index, the tag and the content. Any eight bytes are a number; a string is
text without a nul, and a nul. -/
inductive Spells : ConstantEntry → List UInt8 → Prop where
  | number (index : UInt8) (content : List UInt8) (hcontent : content.length = 8) :
      Spells ⟨index, .number ⟨UInt64.ofNat (littleEndian content)⟩⟩
        (Constant.marker :: index :: 0x64 :: content)
  | string (index : UInt8) (s : String) (hs : '\x00' ∉ s.toList) :
      Spells ⟨index, .string s⟩ (Constant.marker :: index :: 0x73 :: (s.toUTF8.data.toList ++ [0]))

inductive SpellAll : List ConstantEntry → List UInt8 → Prop where
  | nil : SpellAll [] []
  | cons {e : ConstantEntry} {es : List ConstantEntry} {bytes more : List UInt8} (he : e.Spells bytes)
      (hes : SpellAll es more) : SpellAll (e :: es) (bytes ++ more)

/-- Each entry has the index at which it stands, `n` being that of the first. -/
def Numbered (n : Nat) (es : List ConstantEntry) : Prop :=
  es.map (·.index.toNat) = List.range' n es.length

variable {r r' : Reader} {e : ConstantEntry} {es : List ConstantEntry} {bytes behind : List UInt8} {n : Nat}

theorem Spells.eq_cons (h : e.Spells bytes) :
    ∃ content, bytes = Constant.marker :: e.index :: e.constant.tag :: content := by
  cases h with
  | number index content hcontent => exact ⟨content, rfl⟩
  | string index s hs => exact ⟨s.toUTF8.data.toList ++ [0], rfl⟩

theorem numbered_cons : Numbered n (e :: es) ↔ e.index.toNat = n ∧ Numbered (n + 1) es := by
  unfold Numbered
  rw [List.map_cons, List.length_cons, List.range'_succ, List.cons.injEq]

/-- An index is one byte, so there are not more than 256 in a row. -/
theorem Numbered.length_le (h : Numbered n es) (hn : n ≤ 256) : n + es.length ≤ 256 := by
  induction es generalizing n with
  | nil => exact hn
  | cons e es ih =>
      obtain ⟨he, hes⟩ := numbered_cons.mp h
      have hlt := e.index.toNat_lt
      have hle := ih hes (by omega)
      rw [List.length_cons]
      omega

/-- Entries that are not numbered have a first one that is not. -/
theorem exists_of_not_numbered (h : ¬Numbered n es) :
    ∃ before e after, es = before ++ e :: after ∧ Numbered n before ∧ e.index.toNat ≠ n + before.length := by
  induction es generalizing n with
  | nil => exact absurd rfl h
  | cons e es ih =>
      by_cases he : e.index.toNat = n
      · obtain ⟨before, e', after, rfl, hbefore, he'⟩ := ih fun hes => h (numbered_cons.mpr ⟨he, hes⟩)
        refine ⟨e :: before, e', after, rfl, numbered_cons.mpr ⟨he, hbefore⟩, ?_⟩
        rw [List.length_cons]
        omega
      · exact ⟨[], e, es, rfl, rfl, he⟩

theorem SpellAll.split {before after : List ConstantEntry} (h : SpellAll (before ++ e :: after) bytes) :
    ∃ bytes₁ bytes₂ bytes₃, bytes = bytes₁ ++ (bytes₂ ++ bytes₃) ∧ SpellAll before bytes₁ ∧ e.Spells bytes₂ := by
  induction before generalizing bytes with
  | nil =>
      cases h with
      | @cons _ _ bytes₂ bytes₃ he _ => exact ⟨[], bytes₂, bytes₃, rfl, .nil, he⟩
  | cons d before ih =>
      cases h with
      | @cons _ _ first more hd hmore =>
          obtain ⟨bytes₁, bytes₂, bytes₃, rfl, hbefore, he⟩ := ih hmore
          exact ⟨first ++ bytes₁, bytes₂, bytes₃, by rw [List.append_assoc], .cons hd hbefore, he⟩

theorem SpellAll.length_le (h : SpellAll es bytes) : es.length ≤ bytes.length := by
  induction h with
  | nil => exact Nat.le_refl 0
  | cons he hes ih =>
      obtain ⟨content, rfl⟩ := he.eq_cons
      simp only [List.length_cons, List.length_append]
      omega

/-- Where the bytes of an entry stand, the entry is read. -/
theorem read_of_spells (h : e.Spells bytes) (hrest : r.rest = bytes ++ behind) :
    read r = .ok e (r.skip bytes.length) := by
  obtain ⟨content, rfl⟩ := h.eq_cons
  have h₁ : (r.skip 1).rest = e.index :: e.constant.tag :: content ++ behind := Reader.rest_skip [_] hrest
  have h₂ : (r.skip 2).rest = e.constant.tag :: content ++ behind := Reader.rest_skip [_, _] hrest
  have h₃ : (r.skip 3).rest = content ++ behind := Reader.rest_skip [_, _, _] hrest
  have hmarker : Reader.byte r = .ok Constant.marker (r.skip 1) := Reader.byte_apply (Reader.getElem?_code hrest)
  have hindex : Reader.byte (r.skip 1) = .ok e.index (r.skip 2) := Reader.byte_apply (Reader.getElem?_code h₁)
  have htag : Reader.byte (r.skip 2) = .ok e.constant.tag (r.skip 3) := Reader.byte_apply (Reader.getElem?_code h₂)
  unfold read
  rw [apply_bind_of_ok hmarker, apply_bind_of_ok hindex, apply_bind_of_ok (apply_get _), apply_bind_of_ok htag]
  cases h with
  | number index content hcontent =>
      rw [if_pos (show (Constant.number _).tag = 0x64 from rfl),
        apply_bind_of_ok (Reader.double_of_rest hcontent h₃)]
      simp [Reader.skip, hcontent]
  | string index s hs =>
      have hs' := Reader.string_apply hs (h₃.trans (List.append_assoc ..))
      have htag' : (Constant.string s).tag = 0x73 := rfl
      rw [htag', if_neg (by decide), if_pos rfl, apply_bind_of_ok hs']
      simp [Reader.skip]
      omega

/-- What is read behind a marker is an entry whose bytes stand there. -/
theorem read_eq_ok (h : read r = .ok e r') (hmarker : r.peek? = some Constant.marker) :
    ∃ bytes behind, r.rest = bytes ++ behind ∧ e.Spells bytes ∧ r' = r.skip bytes.length := by
  obtain ⟨b, r₁, hb, h⟩ := apply_bind_eq_ok.mp h
  obtain ⟨index, r₂, hindex, h⟩ := apply_bind_eq_ok.mp h
  rw [apply_bind_of_ok (apply_get _)] at h
  obtain ⟨tag, r₃, htag, h⟩ := apply_bind_eq_ok.mp h
  obtain ⟨bs, hbs, rfl⟩ := Reader.byte_eq_ok hb
  obtain ⟨bs₁, hbs₁, rfl⟩ := Reader.byte_eq_ok hindex
  obtain ⟨bs₂, hbs₂, rfl⟩ := Reader.byte_eq_ok htag
  obtain rfl : bs = index :: bs₁ := (Reader.rest_skip [b] hbs).symm.trans hbs₁
  obtain rfl : bs₁ = tag :: bs₂ := (Reader.rest_skip [b, index] hbs).symm.trans hbs₂
  obtain rfl : b = Constant.marker := by simpa [Reader.peek?_eq, hbs] using hmarker
  have hrest : (r.skip 3).rest = bs₂ := Reader.rest_skip [_, _, _] hbs
  split_ifs at h with hnumber hstring
  · subst hnumber
    obtain ⟨x, r₄, hx, h⟩ := apply_bind_eq_ok.mp h
    obtain ⟨content, behind, hcontent, hlength, rfl, rfl⟩ := Reader.double_eq_ok hx
    cases h
    refine ⟨_, behind, ?_, .number index content hlength, ?_⟩
    · rw [hbs, ← hrest]
      exact congrArg (Constant.marker :: index :: 0x64 :: ·) hcontent
    · simp [Reader.skip, hlength]
  · subst hstring
    obtain ⟨s, r₄, hs, h⟩ := apply_bind_eq_ok.mp h
    obtain ⟨behind, hcontent, hnul, rfl⟩ := Reader.string_eq_ok hs
    cases h
    refine ⟨_, behind, ?_, .string index s hnul, ?_⟩
    · rw [hbs, ← hrest]
      refine (congrArg (Constant.marker :: index :: 0x73 :: ·) hcontent).trans ?_
      simp
    · simp [Reader.skip]
      omega
  · cases h

end ConstantEntry

/-! ## Loading -/

open ConstantEntry (SpellAll Numbered)

/-- Between `m` and `m'` the constants of the entries `es` have been loaded, which stand before the reader, each with the
index at which it stands; only the reader has moved besides. -/
structure Machine.Loads (m : Machine) (es : List ConstantEntry) (m' : Machine) : Prop where
  spelt : ∃ bytes behind, m.reader.rest = bytes ++ behind ∧ SpellAll es bytes
  numbered : Numbered m.constants.size es
  moved : ∃ r, m.reader.Inside r ∧
    m' = { m with reader := r, constants := m.constants ++ (es.map (·.constant.value)).toArray }

namespace Machine

variable {m m' : Machine} {e : ConstantEntry} {es : List ConstantEntry} {bytes behind : List UInt8} {r : Reader}

theorem Loads.nil (h : m.reader.Inside r) : m.Loads [] { m with reader := r } where
  spelt := ⟨[], m.reader.rest, rfl, .nil⟩
  numbered := rfl
  moved := ⟨r, h, by simp⟩

theorem Loads.cons (hrest : m.reader.rest = bytes ++ behind) (he : e.Spells bytes)
    (hinside : m.reader.Inside (m.reader.skip bytes.length)) (hindex : e.index.toNat = m.constants.size)
    (h : Loads { m with
      reader := m.reader.skip bytes.length, constants := m.constants.push e.constant.value } es m') :
    m.Loads (e :: es) m' := by
  obtain ⟨⟨more, behind', hrest', hes⟩, hnumbered, ⟨r, hr, rfl⟩⟩ := h
  obtain rfl : behind = more ++ behind' := (Reader.rest_skip bytes hrest).symm.trans hrest'
  rw [Array.size_push] at hnumbered
  exact
    { spelt := ⟨bytes ++ more, behind', by rw [hrest, List.append_assoc], .cons he hes⟩
      numbered := ConstantEntry.numbered_cons.mpr ⟨hindex, hnumbered⟩
      moved := ⟨r, hinside.trans hr, by simp⟩ }

end Machine

namespace Execution

theorem decode_of_error {α : Type} {d : Decoder α} {m : Machine} {f : Fault} {r : Reader}
    (h : d m.reader = .error f r) : decode d m = .error (.fault f) { m with reader := r } := by
  rw [decode, h]

/-- Whether or not loading succeeds, it loads entries that stand before the reader. -/
theorem loadConstants_found (n : Nat) (m : Machine) : ∃ es, m.Loads es (finalState (loadConstants n m)) := by
  induction n generalizing m with
  | zero => exact ⟨[], .nil (.refl _)⟩
  | succ n ih =>
      rw [loadConstants, apply_bind_of_ok (apply_get m)]
      split_ifs with hmarker
      · have hinside := ConstantEntry.read_inside m.reader
        unfold Keeps at hinside
        cases hread : ConstantEntry.read m.reader with
        | error f r =>
            rw [hread] at hinside
            rw [apply_bind_of_error (decode_of_error hread)]
            exact ⟨[], .nil hinside⟩
        | ok e r =>
            rw [hread] at hinside
            rw [apply_bind_of_ok (decode_apply hread), apply_bind_of_ok (apply_get _)]
            split_ifs with hindex
            · obtain ⟨bytes, behind, hrest, he, rfl⟩ := ConstantEntry.read_eq_ok hread (by simpa using hmarker)
              rw [apply_bind_of_ok (apply_modify _ _)]
              obtain ⟨es, hes⟩ := ih _
              exact ⟨e :: es, .cons hrest he hinside hindex hes⟩
            · exact ⟨[], .nil hinside⟩
      · exact ⟨[], .nil (.refl _)⟩

/-- An entry before the reader is loaded if it has the index at which it stands, and stops loading otherwise. -/
theorem loadConstants_of_spells {m : Machine} {e : ConstantEntry} {bytes behind : List UInt8} (he : e.Spells bytes)
    (hrest : m.reader.rest = bytes ++ behind) (n : Nat) :
    loadConstants (n + 1) m =
      if e.index.toNat = m.constants.size then
        loadConstants n { m with
          reader := m.reader.skip bytes.length, constants := m.constants.push e.constant.value }
      else .error (.fault (.constantIndexMismatch m.constants.size e.index))
        { m with reader := m.reader.skip bytes.length } := by
  have hmarker : (m.reader.peek? == some Constant.marker) = true := by
    obtain ⟨content, rfl⟩ := he.eq_cons
    rw [Reader.peek?_eq, hrest]
    rfl
  rw [loadConstants, apply_bind_of_ok (apply_get m), if_pos hmarker,
    apply_bind_of_ok (decode_apply (ConstantEntry.read_of_spells he hrest)), apply_bind_of_ok (apply_get _)]
  split_ifs <;> rfl

/-- The first entry that does not have the index at which it stands stops loading. -/
theorem loadConstants_mismatch {m : Machine} {e : ConstantEntry} {es : List ConstantEntry}
    {bytes more behind : List UInt8} (hes : SpellAll es bytes) (he : e.Spells more)
    (hrest : m.reader.rest = bytes ++ (more ++ behind)) (hnumbered : Numbered m.constants.size es)
    (hindex : e.index.toNat ≠ m.constants.size + es.length) {n : Nat} (hn : es.length < n) :
    ∃ m', loadConstants n m = .error (.fault (.constantIndexMismatch (m.constants.size + es.length) e.index)) m' := by
  obtain ⟨n, rfl⟩ := Nat.exists_eq_succ_of_ne_zero (Nat.ne_zero_of_lt hn)
  induction hes generalizing m n with
  | nil =>
      rw [List.length_nil, Nat.add_zero] at hindex
      rw [loadConstants_of_spells he hrest, if_neg hindex]
      exact ⟨_, rfl⟩
  | @cons d ds bytes bytes' hd _ ih =>
      obtain ⟨hd', hds⟩ := ConstantEntry.numbered_cons.mp hnumbered
      obtain ⟨n, rfl⟩ := Nat.exists_eq_succ_of_ne_zero (Nat.ne_zero_of_lt (Nat.lt_of_succ_lt_succ hn))
      rw [List.append_assoc] at hrest
      rw [loadConstants_of_spells hd hrest, if_pos hd']
      have hsize : (m.constants.push d.constant.value).size + ds.length = m.constants.size + (d :: ds).length := by
        rw [Array.size_push, List.length_cons]
        omega
      have hrest' := Reader.rest_skip bytes hrest
      rw [← hsize] at hindex ⊢
      exact ih hrest' (by rwa [Array.size_push]) hindex n (Nat.lt_of_succ_lt_succ hn)

end Execution

end Lox
