import Mathlib.Algebra.Group.Nat.Defs
import Lox.Machine
import Lox.Proofs.Layout

/-!
# Loading the constants

The machine reads back the constants that stand in front of the code.

* `littleEndian_toLittleEndian`, `zero_notMem_toUTF8` : numbers and text as bytes;
* `Reader.rest` : the bytes that a reader has still to read; `Reader.double_apply`, `Reader.string_apply` and
  `ConstantEntry.read_apply` say how decoders read what was encoded;
* `Execution.loadConstants_apply` : all constants are loaded, in their order;
* `Compiled.Carries.load` : loading a compiled program succeeds and stops at its first instruction.
-/

namespace Lox

/-! ## Bytes -/

@[simp] theorem length_toLittleEndian (width n : Nat) : (toLittleEndian width n).length = width := by
  induction width generalizing n with
  | zero => rfl
  | succ w ih => simp [toLittleEndian, ih]

theorem littleEndian_toLittleEndian (width n : Nat) :
    littleEndian (toLittleEndian width n) = n % 256 ^ width := by
  induction width generalizing n with
  | zero => simp [toLittleEndian, littleEndian, Nat.mod_one]
  | succ w ih =>
      rw [toLittleEndian, littleEndian, ih, Nat.pow_succ', Nat.mod_mul]
      simp

theorem zero_ne_ofNat {n : Nat} (hpos : 0 < n) (hlt : n < 256) : (0 : UInt8) ≠ UInt8.ofNat n := by
  intro h
  have := congrArg UInt8.toNat h
  rw [UInt8.toNat_ofNat_of_lt' hlt, UInt8.toNat_zero] at this
  omega

/-- A character other than the nul is not encoded with a zero byte. -/
theorem zero_notMem_utf8EncodeChar {c : Char} (hc : c ≠ '\x00') : 0 ∉ String.utf8EncodeChar c := by
  have hne : c.val.toNat ≠ 0 := fun h => hc (Char.ext (UInt32.toNat_inj.mp h))
  simp only [String.utf8EncodeChar]
  generalize c.val.toNat = v at hne
  -- every byte but that of an ASCII character has a bit above the sixth set
  split_ifs
  all_goals
    simp only [List.mem_cons, List.not_mem_nil, or_false, not_or]
    repeat' apply And.intro
  all_goals exact zero_ne_ofNat (by omega) (by omega)

theorem toUTF8_eq_flatMap (s : String) : s.toUTF8.data.toList = s.toList.flatMap String.utf8EncodeChar := by
  rw [String.toUTF8_eq_toByteArray, ← String.utf8Encode_toList, List.utf8Encode, List.data_toByteArray]

theorem zero_notMem_toUTF8 {s : String} (h : '\x00' ∉ s.toList) : 0 ∉ s.toUTF8.data.toList := by
  rw [toUTF8_eq_flatMap, List.mem_flatMap]
  rintro ⟨c, hc, hzero⟩
  exact zero_notMem_utf8EncodeChar (fun hnul => h (hnul ▸ hc)) hzero

theorem fromUTF8?_toUTF8 (s : String) : String.fromUTF8? s.toUTF8 = some s := by
  have hvalid : s.toUTF8.IsValidUTF8 := s.isValidUTF8
  rw [String.fromUTF8?, dif_pos hvalid]
  rfl

/-! ## What a reader has before it -/

namespace Reader

def rest (r : Reader) : List UInt8 :=
  r.code.toList.drop r.offset

def skip (r : Reader) (n : Nat) : Reader :=
  { r with offset := r.offset + n }

variable {r : Reader} {b : UInt8} {bs cs : List UInt8}

theorem rest_skip (bs : List UInt8) (h : r.rest = bs ++ cs) : (r.skip bs.length).rest = cs := by
  change r.code.toList.drop (r.offset + bs.length) = cs
  rw [← List.drop_drop]
  change (r.rest).drop bs.length = cs
  rw [h, List.drop_left]

theorem getElem?_code (h : r.rest = b :: bs) : r.code[r.offset]? = some b := by
  have h0 : r.rest[0]? = some b := by rw [h]; rfl
  rwa [rest, List.getElem?_drop, Nat.add_zero, Array.getElem?_toList] at h0

theorem peek?_eq (r : Reader) : r.peek? = r.rest.head? := by
  rw [peek?, rest, List.head?_drop, Array.getElem?_toList]

theorem size_code (h : r.rest = bs) (hb : bs ≠ []) : r.code.size = r.offset + bs.length := by
  have hlen := congrArg List.length h
  have hpos := List.length_pos_iff.mpr hb
  rw [rest, List.length_drop, Array.length_toList] at hlen
  omega

theorem byte_apply (h : r.code[r.offset]? = some b) : byte r = .ok b (r.skip 1) := by
  rw [byte, h]
  rfl

theorem extract_eq (n : Nat) : (r.code.extract r.offset (r.offset + n)).toList = r.rest.take n := by
  rw [Array.toList_extract, List.extract_eq_take_drop, Nat.add_sub_cancel_left, rest]

theorem double_of_rest {content bs : List UInt8} (hlength : content.length = 8) (h : r.rest = content ++ bs) :
    double r = .ok ⟨UInt64.ofNat (littleEndian content)⟩ (r.skip 8) := by
  have hsize := size_code h (by rintro hnil; simp [List.append_eq_nil_iff] at hnil; simp [hnil] at hlength)
  rw [List.length_append] at hsize
  rw [double, if_pos (by omega), extract_eq, h, List.take_left' hlength]
  rfl

theorem double_apply {x : Double} (h : r.rest = toLittleEndian 8 x.bits.toNat ++ bs) :
    double r = .ok x (r.skip 8) := by
  have hbits : x.bits.toNat < 256 ^ 8 := x.bits.toNat_lt
  rw [double_of_rest (length_toLittleEndian ..) h, littleEndian_toLittleEndian, Nat.mod_eq_of_lt hbits,
    UInt64.ofNat_toNat]

theorem string_apply {s : String} (hs : '\x00' ∉ s.toList) (h : r.rest = s.toUTF8.data.toList ++ 0 :: bs) :
    string r = .ok s (r.skip (s.toUTF8.data.toList.length + 1)) := by
  have hcontent : (s.toUTF8.data.toList ++ 0 :: bs).takeWhile (· != 0) = s.toUTF8.data.toList := by
    rw [List.takeWhile_append_of_pos]
    · simp
    · intro b hb
      have hzero := zero_notMem_toUTF8 hs
      exact bne_iff_ne.mpr fun hb0 => hzero (hb0 ▸ hb)
  have hrest : (r.code.extract r.offset r.code.size).toList = r.rest := by
    rw [Array.toList_extract, List.extract_eq_take_drop, rest, List.take_of_length_le (by simp)]
  simp only [string, hrest, h, hcontent]
  rw [if_neg (by simp), Array.toArray_toList]
  have hbytes : ByteArray.mk s.toUTF8.data = s.toUTF8 := rfl
  rw [hbytes, fromUTF8?_toUTF8]
  rfl

end Reader

/-! ## The table of constants -/

theorem ConstantEntry.read_apply {r : Reader} {k : Constant} {i : Nat} {bs : List UInt8}
    (hk : k.encodable = true) (h : r.rest = k.encode i ++ bs) :
    ConstantEntry.read r = .ok ⟨UInt8.ofNat i, k⟩ (r.skip (k.encode i).length) := by
  have h1 : (r.skip 1).rest = UInt8.ofNat i :: k.tag :: k.payload ++ bs := Reader.rest_skip [_] h
  have h2 : (r.skip 2).rest = k.tag :: k.payload ++ bs := Reader.rest_skip [_, _] h
  have h3 : (r.skip 3).rest = k.payload ++ bs := Reader.rest_skip [_, _, _] h
  have hmarker : Reader.byte r = .ok Constant.marker (r.skip 1) :=
    Reader.byte_apply (Reader.getElem?_code h)
  have hindex : Reader.byte (r.skip 1) = .ok (UInt8.ofNat i) (r.skip 2) :=
    Reader.byte_apply (Reader.getElem?_code h1)
  have htag : Reader.byte (r.skip 2) = .ok k.tag (r.skip 3) :=
    Reader.byte_apply (Reader.getElem?_code h2)
  unfold ConstantEntry.read
  rw [apply_bind_of_ok hmarker, apply_bind_of_ok hindex, apply_bind_of_ok (apply_get _),
    apply_bind_of_ok htag]
  cases k with
  | number x =>
      have hx : Reader.double (r.skip 3) = .ok x (r.skip 11) := Reader.double_apply h3
      rw [if_pos (show (Constant.number x).tag = 0x64 from rfl), apply_bind_of_ok hx]
      simp [Constant.encode, Constant.payload]
  | string s =>
      have hnul : '\x00' ∉ s.toList := by simpa [Constant.encodable] using hk
      have hs := Reader.string_apply hnul (h3.trans (List.append_assoc ..))
      have htag : (Constant.string s).tag = 0x73 := rfl
      rw [htag, if_neg (by decide), if_pos rfl, apply_bind_of_ok hs]
      simp [Constant.encode, Constant.payload, Reader.skip]
      omega

theorem Execution.decode_apply {α : Type} {d : Decoder α} {m : Machine} {a : α} {r : Reader}
    (h : d m.reader = .ok a r) : decode d m = .ok a { m with reader := r } := by
  rw [decode, h]

/-- Constants that stand before the reader are loaded behind those already there, and nothing behind
them is touched. -/
theorem Execution.loadConstants_apply (ks : List Constant) {m : Machine} {n : Nat} {bs : List UInt8}
    (hrest : m.reader.rest = Constant.encodeAll m.constants.size ks ++ bs)
    (hbs : bs.head? ≠ some Constant.marker) (hks : ∀ k ∈ ks, k.encodable = true)
    (hsize : m.constants.size + ks.length ≤ 256) (hn : ks.length ≤ n) :
    loadConstants n m = .ok () { m with
      reader := m.reader.skip (Constant.encodeAll m.constants.size ks).length
      constants := m.constants ++ (ks.map Constant.value).toArray } := by
  induction ks generalizing m n with
  | nil =>
      have hpeek : (m.reader.peek? == some Constant.marker) = false := by
        rw [Reader.peek?_eq, hrest]
        simpa [Constant.encodeAll] using hbs
      cases n with
      | zero => simp [loadConstants, Constant.encodeAll, Reader.skip]
      | succ n =>
          rw [loadConstants, apply_bind_of_ok (apply_get m), hpeek]
          simp [Constant.encodeAll, Reader.skip]
  | cons k ks ih =>
      rw [List.length_cons] at hsize hn
      obtain ⟨n, rfl⟩ : ∃ j, n = j + 1 := ⟨n - 1, by omega⟩
      rw [Constant.encodeAll_cons, List.append_assoc] at hrest
      have hpeek : (m.reader.peek? == some Constant.marker) = true := by
        rw [Reader.peek?_eq, hrest]
        rfl
      have hread := Execution.decode_apply (ConstantEntry.read_apply (hks k (by simp)) hrest)
      have hindex : (UInt8.ofNat m.constants.size).toNat = m.constants.size :=
        UInt8.toNat_ofNat_of_lt' (Nat.lt_of_lt_of_le (by omega) hsize)
      rw [loadConstants, apply_bind_of_ok (apply_get m), hpeek, if_pos rfl, apply_bind_of_ok hread,
        apply_bind_of_ok (apply_get _), if_pos hindex, apply_bind_of_ok (apply_modify _ _)]
      have hnext := Reader.rest_skip _ hrest
      rw [ih (by simpa using hnext) (fun k hk => hks k (List.mem_cons_of_mem _ hk)) (by simp; omega) (by omega)]
      simp [Constant.encodeAll_cons, Reader.skip, Nat.add_assoc]

/-! ## Compiled programs -/

/-- The machine about to execute the first instruction of a compiled program. -/
def Machine.loaded (m : Machine) (out : Compiled) : Machine :=
  { m with
    reader := { code := out.code, offset := out.start }
    spans := out.spans
    stack := []
    constants := (out.pool.constants.map Constant.value).toArray }

theorem Opcode.toByte_ne_marker (op : Opcode) : op.toByte ≠ Constant.marker := by
  cases op with
  | binary op => cases op <;> decide
  | unary op => cases op <;> decide
  | _ => decide

/-- The constants of a compiled program are loaded, and nothing else is. -/
theorem Compiled.Carries.load {out : Compiled} {a : Assembly} (h : out.Carries a) (m : Machine) :
    Machine.load out.code out.spans m = .ok () (m.loaded out) := by
  have hrest : (m.start out.code out.spans).reader.rest =
      Constant.encodeAll 0 out.pool.constants ++ a.bytes out.pool.constants := by
    rw [Reader.rest, Machine.start, List.drop_zero, h.code_eq, h.sound.bytes]
  have hhead : (a.bytes out.pool.constants).head? ≠ some Constant.marker := by
    cases a with
    | nil => simp
    | cons l a => simpa [Instr.bytes] using l.instr.opcode.toByte_ne_marker
  have hstart : (Constant.encodeAll 0 out.pool.constants).length = out.start := by
    rw [← h.sound.bytes, Array.length_toList, Compiled.start]
  have hlen : out.pool.constants.length ≤ out.code.size := by
    have := Constant.length_le_encodeAll 0 out.pool.constants
    rw [h.size_code]
    omega
  unfold Machine.load
  rw [apply_bind_of_ok (apply_modify _ _), Execution.loadConstants_apply out.pool.constants hrest hhead
    h.sound.encodable (by simpa [Machine.start] using h.sound.length_le) hlen]
  simp [Machine.start, Machine.loaded, Reader.skip, hstart]

theorem Compiled.Carries.execute_eq {out : Compiled} {a : Assembly} (h : out.Carries a) (m : Machine) (fuel : Nat) :
    m.execute fuel out.code out.spans = Machine.run fuel (m.loaded out) := by
  rw [Machine.execute, h.load m]

end Lox
