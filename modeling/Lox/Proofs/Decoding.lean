import Mathlib.Data.Nat.Digits.Defs
import Lox.Proofs.Legibility

/-!
# Reading, operation after operation

A reader can be asked for one thing after another, whatever its code is and whether or not it could answer before.

* `Reader.Operation` : what can be asked of a reader; `Reader.Operation.run` does it, `Reader.after` does a row of them;
* `Reader.Passes code o bytes o'` : `bytes` are what stands between two offsets of the code;
* `Reader.Gives`, `Reader.Faults` : what an operation gives or faults with, and where it leaves the reader, said by the
  bytes alone; `Reader.run_of_gives`, `Reader.run_of_faults` and `Reader.gives_or_faults` show that there is no third;
* `Reader.after_confined` : a reader never leaves its code, and an operation does what `Gives` and `Faults` say.
-/

namespace Lox

namespace Reader

/-! ## Operations -/

inductive Operation where
  | byte
  | word
  | signedWord
  | double
  | string
  | opcode
  | peek
  | jump (distance : UInt16)
  | jumpSigned (distance : Int16)

inductive Answer where
  | byte (b : UInt8)
  | word (n : Nat)
  | signedWord (n : Int)
  | double (x : Double)
  | string (s : String)
  | opcode (op : Opcode)
  | peek (next : Option UInt8)
  | moved

namespace Operation

def run : Operation → Decoder Answer
  | byte => Answer.byte <$> Reader.byte
  | word => Answer.word <$> Reader.word
  | signedWord => Answer.signedWord <$> Reader.signedWord
  | double => Answer.double <$> Reader.double
  | string => Answer.string <$> Reader.string
  | opcode => Answer.opcode <$> Reader.opcode
  | peek => return .peek (← get).peek?
  | jump distance => (fun _ => .moved) <$> Reader.jump distance.toNat
  | jumpSigned distance => (fun _ => .moved) <$> Reader.jump distance.toInt

/-- How many bytes must be left, where that does not depend on what they are. -/
def width? : Operation → Option Nat
  | byte | opcode => some 1
  | word | signedWord => some 2
  | double => some 8
  | string | peek | jump _ | jumpSigned _ => none

def distance? : Operation → Option Int
  | jump distance => some distance.toNat
  | jumpSigned distance => some distance.toInt
  | byte | opcode | word | signedWord | double | string | peek => none

end Operation

/-- The reader behind operations in turn. After one that faults it goes on with the next. -/
def after (r : Reader) : List Operation → Reader
  | [] => r
  | op :: ops => (finalState (op.run r)).after ops

/-! ## What stands in the code -/

/-- The bytes between two offsets of the code. -/
structure Passes (code : Array UInt8) (o : Nat) (bytes : List UInt8) (o' : Nat) : Prop where
  stop_eq : o' = o + bytes.length
  stop_le : o' ≤ code.size
  bytes_eq : (code.extract o o').toList = bytes

def valueOf (bytes : List UInt8) : Nat :=
  Nat.ofDigits 256 (bytes.map UInt8.toNat)

/-- What an operation gives at an offset, and where the reader is then. -/
inductive Gives (code : Array UInt8) (o : Nat) : Operation → Answer → Nat → Prop where
  | byte {b : UInt8} {o' : Nat} (h : Passes code o [b] o') : Gives code o .byte (.byte b) o'
  | word {bytes : List UInt8} {o' : Nat} (h : Passes code o bytes o') (hlength : bytes.length = 2) :
      Gives code o .word (.word (valueOf bytes)) o'
  | signedWord {bytes : List UInt8} {o' : Nat} (h : Passes code o bytes o') (hlength : bytes.length = 2) :
      Gives code o .signedWord (.signedWord (Int.bmod (valueOf bytes) (2 ^ 16))) o'
  | double {bytes : List UInt8} {o' : Nat} (h : Passes code o bytes o') (hlength : bytes.length = 8) :
      Gives code o .double (.double ⟨UInt64.ofNat (valueOf bytes)⟩) o'
  /-- The text ends before the first nul, and the nul is passed over. -/
  | string {s : String} {o' : Nat} (h : Passes code o (s.toUTF8.data.toList ++ [0]) o')
      (hnul : 0 ∉ s.toUTF8.data.toList) : Gives code o .string (.string s) o'
  | opcode {op : Opcode} {o' : Nat} (h : Passes code o [op.toByte] o') : Gives code o .opcode (.opcode op) o'
  | peek : Gives code o .peek (.peek (code.toList.drop o).head?) o
  | move {op : Operation} {d : Int} {o' : Nat} (hd : op.distance? = some d) (htarget : (o' : Int) = o + d)
      (hle : o' ≤ code.size) : Gives code o op .moved o'

/-- What an operation faults with at an offset, and where the reader is then. Only an opcode that stands for nothing has
been passed over. -/
inductive Faults (code : Array UInt8) (o : Nat) : Operation → Fault → Nat → Prop where
  | short {op : Operation} {width : Nat} (hwidth : op.width? = some width) (h : code.size < o + width) :
      Faults code o op (.outOfBounds o width code.size) o
  | unterminated (h : 0 ∉ code.toList.drop o) : Faults code o .string (.unterminatedString o) o
  | invalidUtf8 {bytes : List UInt8} {o' : Nat} (h : Passes code o (bytes ++ [0]) o') (hnul : 0 ∉ bytes)
      (hinvalid : ∀ s : String, s.toUTF8.data.toList ≠ bytes) : Faults code o .string (.invalidUtf8 o) o
  | unassigned {b : UInt8} {o' : Nat} (h : Passes code o [b] o') (hb : ∀ op : Opcode, op.toByte ≠ b) :
      Faults code o .opcode (.invalidOpcode b o) o'
  | outside {op : Operation} {d : Int} (hd : op.distance? = some d)
      (h : (o : Int) + d < 0 ∨ (code.size : Int) < o + d) :
      Faults code o op (.outOfBounds ((o : Int) + d).toNat 0 code.size) o

section

variable {code : Array UInt8} {o o' n : Nat} {bytes behind : List UInt8} {op : Operation}

theorem passes_of_drop (h : code.toList.drop o = bytes ++ behind) (ho : o ≤ code.size) :
    Passes code o bytes (o + bytes.length) := by
  have hlength := congrArg List.length h
  rw [List.length_drop, Array.length_toList, List.length_append] at hlength
  refine ⟨rfl, by omega, ?_⟩
  rw [Array.toList_extract, List.extract_eq_take_drop, Nat.add_sub_cancel_left, h, List.take_left]

theorem exists_passes (h : o + n ≤ code.size) : ∃ bytes, bytes.length = n ∧ Passes code o bytes (o + n) := by
  have hlength : ((code.extract o (o + n)).toList).length = n := by
    rw [Array.length_toList, Array.size_extract]
    omega
  exact ⟨_, hlength, by rw [hlength], h, rfl⟩

namespace Passes

theorem drop_eq (h : Passes code o bytes o') : code.toList.drop o = bytes ++ code.toList.drop o' := by
  have htake : (code.toList.drop o).take bytes.length = bytes := by
    have hbytes := h.bytes_eq
    rwa [Array.toList_extract, List.extract_eq_take_drop, h.stop_eq, Nat.add_sub_cancel_left] at hbytes
  calc code.toList.drop o
      = (code.toList.drop o).take bytes.length ++ (code.toList.drop o).drop bytes.length :=
        (List.take_append_drop ..).symm
    _ = bytes ++ code.toList.drop o' := by rw [htake, List.drop_drop, h.stop_eq]

/-- The bytes up to a nul, the nul, and what is left. -/
theorem drop_nul (h : Passes code o (bytes ++ [0]) o') : code.toList.drop o = bytes ++ 0 :: code.toList.drop o' := by
  rw [h.drop_eq, List.append_assoc, List.singleton_append]

theorem getElem? (h : Passes code o bytes o') (i : Nat) (hi : i < bytes.length) : code[o + i]? = bytes[i]? := by
  rw [← Array.getElem?_toList, ← List.getElem?_drop, h.drop_eq, List.getElem?_append_left hi]

end Passes

theorem littleEndian_eq_valueOf (bytes : List UInt8) : littleEndian bytes = valueOf bytes := by
  induction bytes with
  | nil => rfl
  | cons b bytes ih => rw [littleEndian, ih, valueOf, valueOf, List.map_cons, Nat.ofDigits_cons]

theorem signed_eq_bmod {w : Nat} (h : w < 0x10000) : signed w = Int.bmod w (2 ^ 16) := by
  rw [signed, Int.bmod_def]
  split <;> split <;> omega

/-! ## Texts -/

theorem toList_extract_size (r : Reader) : (r.code.extract r.offset r.code.size).toList = r.rest := by
  rw [Array.toList_extract, List.extract_eq_take_drop, rest, List.take_of_length_le (by simp)]

theorem string_of_unterminated {r : Reader} (h : 0 ∉ r.rest) : string r = .error (.unterminatedString r.offset) r := by
  have hall : r.rest.takeWhile (· != 0) = r.rest := by
    rw [List.takeWhile_eq_self_iff]
    intro b hb
    exact bne_iff_ne.mpr fun hzero => h (hzero ▸ hb)
  simp only [string, toList_extract_size, hall, if_true]

theorem string_of_invalid {r : Reader} (h : r.rest = bytes ++ 0 :: behind) (hnul : 0 ∉ bytes)
    (hinvalid : ∀ s : String, s.toUTF8.data.toList ≠ bytes) : string r = .error (.invalidUtf8 r.offset) r := by
  have hcontent : r.rest.takeWhile (· != 0) = bytes := by
    rw [h, List.takeWhile_append_of_pos]
    · simp
    · intro b hb
      exact bne_iff_ne.mpr fun hzero => hnul (hzero ▸ hb)
  have hnone : String.fromUTF8? (ByteArray.mk bytes.toArray) = none := by
    cases hs : String.fromUTF8? (ByteArray.mk bytes.toArray) with
    | none => rfl
    | some s =>
        apply absurd _ (hinvalid s)
        rw [toUTF8_of_fromUTF8? hs]
  have hlength : bytes.length ≠ r.rest.length := by
    rw [h, List.length_append, List.length_cons]
    omega
  simp only [string, toList_extract_size, hcontent, if_neg hlength, hnone]

/-! ## What an operation does -/

theorem word_of_passes (h : Passes code o bytes o') (hlength : bytes.length = 2) :
    Reader.word ⟨code, o⟩ = .ok (valueOf bytes) ⟨code, o'⟩ := by
  have hbytes := bytes_apply (r := ⟨code, o⟩) bytes fun i b hi => by
    rw [h.getElem? i (List.getElem?_eq_some_iff.mp hi).1, hi]
  rw [hlength] at hbytes
  rw [h.stop_eq, hlength]
  exact word_eq_ok.mpr ⟨bytes, hbytes, littleEndian_eq_valueOf bytes⟩

/-- A move is a jump, whichever way. -/
theorem run_of_distance? {d : Int} (hd : op.distance? = some d) : op.run = (fun _ => .moved) <$> Reader.jump d := by
  cases op with
  | jump distance | jumpSigned distance =>
      cases hd
      rfl
  | byte | word | signedWord | double | string | opcode | peek => cases hd

/-- Where an operation can give something, it does. -/
theorem run_of_gives {a : Answer} (h : Gives code o op a o') : op.run ⟨code, o⟩ = .ok a ⟨code, o'⟩ := by
  cases h with
  | @byte b _ h =>
      obtain rfl := h.stop_eq
      exact apply_map_of_ok (byte_apply (h.getElem? 0 Nat.one_pos))
  | @word bytes _ h hlength =>
      exact apply_map_of_ok (word_of_passes h hlength)
  | @signedWord bytes _ h hlength =>
      refine apply_map_of_ok ?_
      have hlt := littleEndian_lt bytes
      rw [hlength, littleEndian_eq_valueOf] at hlt
      rw [signedWord, apply_bind_of_ok (word_of_passes h hlength), apply_pure, signed_eq_bmod hlt]
  | @double bytes _ h hlength =>
      obtain rfl := h.stop_eq
      have hread := double_of_rest (r := ⟨code, o⟩) hlength h.drop_eq
      rw [littleEndian_eq_valueOf] at hread
      rw [hlength]
      exact apply_map_of_ok hread
  | @string s _ h hnul =>
      have hread := string_apply (r := ⟨code, o⟩) (fun hmem => hnul (zero_mem_toUTF8 hmem)) h.drop_nul
      rw [h.stop_eq, List.length_append]
      exact apply_map_of_ok hread
  | @opcode c _ h =>
      obtain rfl := h.stop_eq
      exact apply_map_of_ok (opcode_apply (h.getElem? 0 Nat.one_pos))
  | peek =>
      rw [Operation.run, apply_bind_of_ok (apply_get _), apply_pure, peek?_eq]
      rfl
  | @move _ d _ hd htarget hle =>
      rw [run_of_distance? hd]
      exact apply_map_of_ok (jump_apply (r := ⟨code, o⟩) htarget.symm hle)

theorem byte_of_short {r : Reader} (h : r.code.size < r.offset + 1) :
    Reader.byte r = .error (.outOfBounds r.offset 1 r.code.size) r := by
  rw [Reader.byte, Array.getElem?_eq_none (by omega)]
  rfl

theorem word_of_short {r : Reader} (h : r.code.size < r.offset + 2) :
    Reader.word r = .error (.outOfBounds r.offset 2 r.code.size) r := by
  rw [Reader.word, Array.getElem?_eq_none (i := r.offset + 1) (by omega)]
  cases r.code[r.offset]? <;> rfl

theorem double_of_short {r : Reader} (h : r.code.size < r.offset + 8) :
    Reader.double r = .error (.outOfBounds r.offset 8 r.code.size) r := by
  rw [Reader.double, if_neg (by omega)]
  rfl

/-- Too few bytes are left. -/
theorem run_of_short (hwidth : op.width? = some n) (h : code.size < o + n) :
    op.run ⟨code, o⟩ = .error (.outOfBounds o n code.size) ⟨code, o⟩ := by
  cases op with
  | byte =>
      cases hwidth
      exact apply_map_of_error (byte_of_short h)
  | word =>
      cases hwidth
      exact apply_map_of_error (word_of_short h)
  | signedWord =>
      cases hwidth
      exact apply_map_of_error (apply_bind_of_error (word_of_short h))
  | double =>
      cases hwidth
      exact apply_map_of_error (double_of_short h)
  | opcode =>
      cases hwidth
      apply apply_map_of_error
      rw [Reader.opcode, apply_bind_of_ok (apply_get _), apply_bind_of_error (byte_of_short h)]
  | string | peek | jump distance | jumpSigned distance => cases hwidth

theorem opcode_of_unassigned {b : UInt8} (h : Passes code o [b] o') (hb : ∀ op : Opcode, op.toByte ≠ b) :
    Reader.opcode ⟨code, o⟩ = .error (.invalidOpcode b o) ⟨code, o'⟩ := by
  obtain rfl := h.stop_eq
  have hbyte : byte ⟨code, o⟩ = .ok b ⟨code, o + 1⟩ := byte_apply (h.getElem? 0 Nat.one_pos)
  have hnone : Opcode.ofByte? b = none := by
    cases hop : Opcode.ofByte? b with
    | none => rfl
    | some op => exact absurd (Opcode.toByte_of_ofByte? hop).symm (hb op)
  rw [Reader.opcode, apply_bind_of_ok (apply_get _), apply_bind_of_ok hbyte, hnone]
  rfl

theorem jump_of_outside {d : Int} (h : (o : Int) + d < 0 ∨ (code.size : Int) < o + d) :
    Reader.jump d ⟨code, o⟩ = .error (.outOfBounds ((o : Int) + d).toNat 0 code.size) ⟨code, o⟩ := by
  rw [Reader.jump, apply_bind_of_ok (apply_get _), seek, if_neg]
  dsimp only
  omega

/-- Where an operation must fault, it does. -/
theorem run_of_faults {f : Fault} (h : Faults code o op f o') : op.run ⟨code, o⟩ = .error f ⟨code, o'⟩ := by
  cases h with
  | short hwidth h => exact run_of_short hwidth h
  | unterminated h => exact apply_map_of_error (string_of_unterminated h)
  | invalidUtf8 h hnul hinvalid => exact apply_map_of_error (string_of_invalid h.drop_nul hnul hinvalid)
  | unassigned h hb => exact apply_map_of_error (opcode_of_unassigned h hb)
  | outside hd h =>
      rw [run_of_distance? hd]
      exact apply_map_of_error (jump_of_outside h)

/-- Text ends at the first nul, if there is one and it is text. -/
theorem string_gives_or_faults (ho : o ≤ code.size) :
    (∃ a o', Gives code o .string a o') ∨ ∃ f o', Faults code o .string f o' := by
  by_cases hzero : 0 ∈ code.toList.drop o
  · obtain ⟨bytes, behind, hdrop, hnul⟩ := List.eq_append_cons_of_mem hzero
    rw [← List.singleton_append, ← List.append_assoc] at hdrop
    have hpasses := passes_of_drop hdrop ho
    by_cases hvalid : ∃ s : String, s.toUTF8.data.toList = bytes
    · obtain ⟨s, rfl⟩ := hvalid
      exact .inl ⟨_, _, .string hpasses hnul⟩
    · exact .inr ⟨_, _, .invalidUtf8 hpasses hnul fun s hs => hvalid ⟨s, hs⟩⟩
  · exact .inr ⟨_, _, .unterminated hzero⟩

/-- Every operation can give something or must fault. -/
theorem gives_or_faults (ho : o ≤ code.size) (op : Operation) :
    (∃ a o', Gives code o op a o') ∨ ∃ f o', Faults code o op f o' := by
  have hbytes : ∀ width, op.width? = some width →
      (∃ bytes, bytes.length = width ∧ Passes code o bytes (o + width)) ∨ ∃ f o', Faults code o op f o' := by
    intro width hwidth
    by_cases h : o + width ≤ code.size
    · exact .inl (exists_passes h)
    · exact .inr ⟨_, _, .short hwidth (Nat.lt_of_not_le h)⟩
  have hmove : ∀ d, op.distance? = some d → (∃ a o', Gives code o op a o') ∨ ∃ f o', Faults code o op f o' := by
    intro d hd
    by_cases h : (o : Int) + d < 0 ∨ (code.size : Int) < o + d
    · exact .inr ⟨_, _, .outside hd h⟩
    · exact .inl ⟨_, ((o : Int) + d).toNat, .move hd (by omega) (by omega)⟩
  cases op with
  | byte =>
      refine (hbytes 1 rfl).imp_left ?_
      rintro ⟨bytes, hlength, h⟩
      obtain ⟨b, rfl⟩ := List.length_eq_one_iff.mp hlength
      exact ⟨_, _, .byte h⟩
  | word =>
      refine (hbytes 2 rfl).imp_left ?_
      rintro ⟨bytes, hlength, h⟩
      exact ⟨_, _, .word h hlength⟩
  | signedWord =>
      refine (hbytes 2 rfl).imp_left ?_
      rintro ⟨bytes, hlength, h⟩
      exact ⟨_, _, .signedWord h hlength⟩
  | double =>
      refine (hbytes 8 rfl).imp_left ?_
      rintro ⟨bytes, hlength, h⟩
      exact ⟨_, _, .double h hlength⟩
  | string => exact string_gives_or_faults ho
  | opcode =>
      rcases hbytes 1 rfl with ⟨bytes, hlength, h⟩ | hfaults
      · obtain ⟨b, rfl⟩ := List.length_eq_one_iff.mp hlength
        by_cases hb : ∃ c : Opcode, c.toByte = b
        · obtain ⟨c, rfl⟩ := hb
          exact .inl ⟨_, _, .opcode h⟩
        · exact .inr ⟨_, _, .unassigned h fun c hc => hb ⟨c, hc⟩⟩
      · exact .inr hfaults
  | peek => exact .inl ⟨_, _, .peek⟩
  | jump distance => exact hmove _ rfl
  | jumpSigned distance => exact hmove _ rfl

theorem run_eq_ok_iff (ho : o ≤ code.size) (op : Operation) (a : Answer) (r : Reader) :
    op.run ⟨code, o⟩ = .ok a r ↔ ∃ o', r = ⟨code, o'⟩ ∧ Gives code o op a o' := by
  constructor
  · intro hrun
    rcases gives_or_faults ho op with ⟨a', o', h⟩ | ⟨f, o', h⟩
    · obtain ⟨rfl, rfl⟩ := EStateM.Result.ok.inj (hrun.symm.trans (run_of_gives h))
      exact ⟨o', rfl, h⟩
    · rw [run_of_faults h] at hrun
      cases hrun
  · rintro ⟨o', rfl, h⟩
    exact run_of_gives h

theorem run_eq_error_iff (ho : o ≤ code.size) (op : Operation) (f : Fault) (r : Reader) :
    op.run ⟨code, o⟩ = .error f r ↔ ∃ o', r = ⟨code, o'⟩ ∧ Faults code o op f o' := by
  constructor
  · intro hrun
    rcases gives_or_faults ho op with ⟨a, o', h⟩ | ⟨f', o', h⟩
    · rw [run_of_gives h] at hrun
      cases hrun
    · obtain ⟨rfl, rfl⟩ := EStateM.Result.error.inj (hrun.symm.trans (run_of_faults h))
      exact ⟨o', rfl, h⟩
  · rintro ⟨o', rfl, h⟩
    exact run_of_faults h

/-! ## Rows of operations -/

theorem Gives.le {a : Answer} (h : Gives code o op a o') (ho : o ≤ code.size) : o' ≤ code.size := by
  cases h with
  | byte h | word h | signedWord h | double h | string h | opcode h => exact h.stop_le
  | peek => exact ho
  | move hd htarget hle => exact hle

theorem Faults.le {f : Fault} (h : Faults code o op f o') (ho : o ≤ code.size) : o' ≤ code.size := by
  cases h with
  | unassigned h hb => exact h.stop_le
  | short | unterminated | invalidUtf8 | outside => exact ho

/-- An operation leaves the reader in its code. -/
theorem finalState_run (ho : o ≤ code.size) (op : Operation) :
    ∃ o' ≤ code.size, finalState (op.run ⟨code, o⟩) = ⟨code, o'⟩ := by
  rcases gives_or_faults ho op with ⟨a, o', h⟩ | ⟨f, o', h⟩
  · exact ⟨o', h.le ho, by rw [run_of_gives h, finalState]⟩
  · exact ⟨o', h.le ho, by rw [run_of_faults h, finalState]⟩

/-- So do operations in turn. -/
theorem after_inside (ho : o ≤ code.size) (ops : List Operation) :
    ∃ o' ≤ code.size, after ⟨code, o⟩ ops = ⟨code, o'⟩ := by
  induction ops generalizing o with
  | nil => exact ⟨o, ho, rfl⟩
  | cons op ops ih =>
      obtain ⟨o', ho', hstep⟩ := finalState_run ho op
      rw [after, hstep]
      exact ih ho'

end

/-- **A reader never leaves its code**, whatever it is asked for and whatever it could not answer. An operation gives
what the bytes that it passes over spell; it faults just where it must, and then it has not moved, unless it has read an
opcode that stands for nothing. -/
theorem after_confined (code : Array UInt8) (ops : List Operation) :
    ∃ o ≤ code.size, after { code } ops = ⟨code, o⟩ ∧ ∀ op : Operation,
      (∀ a r, op.run ⟨code, o⟩ = .ok a r ↔ ∃ o', r = ⟨code, o'⟩ ∧ Gives code o op a o') ∧
      (∀ f r, op.run ⟨code, o⟩ = .error f r ↔ ∃ o', r = ⟨code, o'⟩ ∧ Faults code o op f o') := by
  obtain ⟨o, ho, hafter⟩ := after_inside (Nat.zero_le code.size) ops
  exact ⟨o, ho, hafter, fun op => ⟨run_eq_ok_iff ho op, run_eq_error_iff ho op⟩⟩

end Reader

end Lox
