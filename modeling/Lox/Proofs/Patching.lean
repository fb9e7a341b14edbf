import Mathlib.Order.Nat
import Lox.Proofs.Stepping

/-!
# Chunks under construction

Jumps are written while the code around them is still growing, and a forward jump is patched any time later. However the
operations on a chunk follow one another, and whether or not they succeed, a jump leads where it was aimed.

* `Edit` : an operation on a chunk;
* `Draft` : a chunk with what was asked of it: the forward jumps with their latest targets, and the jumps back;
* `Draft.history` : the instructions that a row of operations writes, in turn;
* `Draft.Permits` : what is patched is a forward jump that was written, and nothing else is asked;
* `Draft.Sound d ws` : the instructions `ws` stand in the code and in the table of spans, each jump has the distance that
  it was given, and no two overlap; `Draft.edit_sound` says that an operation keeps this, `Draft.editAll_sound` that a row
  of them does;
* `Reader.follow` : reading a jump and jumping;
* `Draft.jumps_land` : where jumps lead, and when they are refused.
-/

namespace Lox

/-! ## Operations -/

inductive Edit where
  | write (op : Opcode) (span : Span)
  | writeByte (op : Opcode) (operand : UInt8) (span : Span)
  | writeWord (op : Opcode) (operand : Nat) (span : Span)
  | writeJump (op : Opcode) (span : Span)
  | patchJump (operand : Nat)
  | writeLoop (start : Nat) (span : Span)

structure ForwardJump where
  opcode : Opcode
  span : Span
  offset : Nat
  /-- What was given out to patch the jump with. -/
  operand : Nat
  /-- How long the code was when the jump was last patched. -/
  target : Option Nat := none
deriving DecidableEq

structure BackwardJump where
  offset : Nat
  start : Nat
deriving DecidableEq

/-- A chunk with the jumps that were written to it. -/
structure Draft where
  chunk : Chunk := {}
  forward : List ForwardJump := []
  backward : List BackwardJump := []

/-- The jump is patched when the code has the given length. -/
def ForwardJump.patch (operand length : Nat) (j : ForwardJump) : ForwardJump :=
  if j.operand = operand then { j with target := some length } else j

/-- Patching a jump changes its target only. -/
theorem ForwardJump.patch_eq (operand length : Nat) (j : ForwardJump) :
    ∃ t, j.patch operand length = { j with target := t } := by
  unfold patch
  split_ifs
  · exact ⟨some length, rfl⟩
  · exact ⟨j.target, rfl⟩

@[simp] theorem ForwardJump.offset_patch (operand length : Nat) (j : ForwardJump) :
    (j.patch operand length).offset = j.offset := by
  obtain ⟨t, ht⟩ := j.patch_eq operand length
  rw [ht]

namespace Draft

/-- The draft behind an operation, which may fail. -/
def edit (d : Draft) : Edit → Draft
  | .write op span => { d with chunk := d.chunk.write op span }
  | .writeByte op operand span => { d with chunk := d.chunk.writeByte op operand span }
  | .writeWord op operand span => { d with chunk := d.chunk.writeWord op operand span }
  | .writeJump op span =>
    { d with
      chunk := (d.chunk.writeJump op span).2
      forward := ⟨op, span, d.chunk.offset, (d.chunk.writeJump op span).1, none⟩ :: d.forward }
  | .patchJump operand =>
    match Chunk.patchJump operand d.chunk with
    | .ok _ chunk => { d with chunk, forward := d.forward.map (·.patch operand d.chunk.offset) }
    | .error _ chunk => { d with chunk }
  | .writeLoop start span =>
    match Chunk.writeLoop start span d.chunk with
    | .ok _ chunk => { d with chunk, backward := ⟨d.chunk.offset, start⟩ :: d.backward }
    | .error _ chunk => { d with chunk }

def editAll (d : Draft) (es : List Edit) : Draft :=
  es.foldl edit d

structure Entry where
  opcode : Opcode
  offset : Nat
  span : Span
deriving DecidableEq

/-- The instruction that an operation writes, if it writes one. -/
def written? (d : Draft) : Edit → Option Entry
  | .write op span | .writeByte op _ span | .writeWord op _ span | .writeJump op span =>
    some ⟨op, d.chunk.offset, span⟩
  | .patchJump _ => none
  | .writeLoop start span =>
    match Chunk.writeLoop start span d.chunk with
    | .ok _ _ => some ⟨.jumpSigned, d.chunk.offset, span⟩
    | .error _ _ => none

def history (d : Draft) : List Edit → List Entry
  | [] => []
  | e :: es => (d.written? e).toList ++ (d.edit e).history es

/-- What is patched is a forward jump that was written. Jumps back may be aimed anywhere. -/
def Permits (d : Draft) : Edit → Prop
  | .patchJump operand => ∃ j ∈ d.forward, j.operand = operand
  | _ => True

instance (d : Draft) : (e : Edit) → Decidable (d.Permits e)
  | .patchJump operand => inferInstanceAs (Decidable (∃ j ∈ d.forward, j.operand = operand))
  | .write _ _ | .writeByte _ _ _ | .writeWord _ _ _ | .writeJump _ _ | .writeLoop _ _ =>
    inferInstanceAs (Decidable True)

def PermitsAll (d : Draft) : List Edit → Prop
  | [] => True
  | e :: es => d.Permits e ∧ (d.edit e).PermitsAll es

instance decidablePermitsAll (d : Draft) : (es : List Edit) → Decidable (d.PermitsAll es)
  | [] => inferInstanceAs (Decidable True)
  | e :: es =>
    have := decidablePermitsAll (d.edit e) es
    inferInstanceAs (Decidable (d.Permits e ∧ (d.edit e).PermitsAll es))

end Draft

/-! ## What stands in the code -/

def Chunk.HasWord (c : Chunk) (o w : Nat) : Prop :=
  ∀ i b, (toLittleEndian 2 w)[i]? = some b → c.code[o + i]? = some b

def Chunk.extend (c : Chunk) (bytes : List UInt8) (span : Span) : Chunk :=
  { code := c.code ++ bytes, spans := c.spans.record c.offset span }

/-- A forward jump stands in the code, and if it was patched it has the distance to its target. -/
structure ForwardJump.Stands (j : ForwardJump) (c : Chunk) : Prop where
  operand_eq : j.operand = j.offset + 1
  inside : j.offset + 3 ≤ c.offset
  patched : ∀ t, j.target = some t →
    j.offset + 3 ≤ t ∧ t ≤ c.offset ∧ t ≤ j.offset + 3 + 0xffff ∧ c.HasWord (j.offset + 1) (t - (j.offset + 3))

structure BackwardJump.Stands (j : BackwardJump) (c : Chunk) : Prop where
  near : -0x8000 ≤ (j.start : Int) - (j.offset + 3 : Nat) ∧ (j.start : Int) - (j.offset + 3 : Nat) < 0x8000
  inside : j.offset + 3 ≤ c.offset
  opcode : c.code[j.offset]? = some Opcode.jumpSigned.toByte
  distance : c.HasWord (j.offset + 1) ((j.start - (j.offset + 3 : Nat) : Int) % 0x10000).toNat

/-- The jumps that start at the offsets do not overlap. -/
def Apart (o o' : Nat) : Prop :=
  o + 3 ≤ o' ∨ o' + 3 ≤ o

/-- The instructions stand in the code, one behind the other, and the table has an entry for each. Each jump stands in
the code as it should, and the operand of a forward jump is no part of another instruction. -/
structure Draft.Sound (d : Draft) (ws : List Draft.Entry) : Prop where
  entries : d.chunk.spans.entries.toList = ws.map fun w => (w.offset, w.span)
  ascending : ws.Pairwise fun w w' => w.offset < w'.offset
  inside : ∀ w ∈ ws, w.offset < d.chunk.offset
  opcode : ∀ w ∈ ws, d.chunk.code[w.offset]? = some w.opcode.toByte
  forward : ∀ j ∈ d.forward, j.Stands d.chunk ∧ ⟨j.opcode, j.offset, j.span⟩ ∈ ws
  backward : ∀ j ∈ d.backward, j.Stands d.chunk
  apart : ∀ j ∈ d.forward, ∀ w ∈ ws, w.offset ≤ j.offset ∨ j.offset + 3 ≤ w.offset
  apart_backward : ∀ j ∈ d.forward, ∀ k ∈ d.backward, Apart j.offset k.offset

namespace Chunk

variable {c c' : Chunk} {op : Opcode} {span : Span} {bytes : List UInt8} {o o' w i : Nat}

theorem write_eq_extend : c.write op span = c.extend [op.toByte] span := by
  simp [write, extend]

theorem writeByte_eq_extend (operand : UInt8) : c.writeByte op operand span = c.extend [op.toByte, operand] span := by
  simp [writeByte, write, extend]

theorem writeWord_eq_extend (operand : Nat) :
    c.writeWord op operand span = c.extend (op.toByte :: toLittleEndian 2 operand) span := by
  simp [writeWord, write, extend]

theorem offset_extend : (c.extend bytes span).offset = c.offset + bytes.length := by
  rw [offset, extend, ← Array.length_toList, Array.toList_appendList, List.length_append, Array.length_toList, offset]

theorem writeJump_eq (c : Chunk) (op : Opcode) (span : Span) :
    c.writeJump op span = (c.offset + 1, c.extend (op.toByte :: toLittleEndian 2 maxDistance) span) := by
  have hoffset : (c.extend (op.toByte :: toLittleEndian 2 maxDistance) span).offset - 2 = c.offset + 1 := by
    rw [offset_extend]
    rfl
  unfold writeJump
  rw [writeWord_eq_extend]
  exact congrArg (·, _) hoffset

theorem getElem?_extend_left (h : i < c.offset) : (c.extend bytes span).code[i]? = c.code[i]? := by
  rw [extend, ← Array.getElem?_toList, Array.toList_appendList, List.getElem?_append_left h, Array.getElem?_toList]

theorem getElem?_extend_right : (c.extend bytes span).code[c.offset + i]? = bytes[i]? := by
  have hlength : c.code.toList.length = c.offset := Array.length_toList
  rw [extend, ← Array.getElem?_toList, Array.toList_appendList, List.getElem?_append_right (by omega), hlength,
    Nat.add_sub_cancel_left]

theorem HasWord.congr (h : c.HasWord o w) (hcode : ∀ i, o ≤ i → i < o + 2 → c'.code[i]? = c.code[i]?) :
    c'.HasWord o w := by
  intro i b hb
  have hi : i < 2 := by
    obtain ⟨hlt, -⟩ := List.getElem?_eq_some_iff.mp hb
    rwa [length_toLittleEndian] at hlt
  rw [hcode _ (by omega) (by omega)]
  exact h i b hb

theorem hasWord_extend (b : UInt8) : (c.extend (b :: toLittleEndian 2 w) span).HasWord (c.offset + 1) w := by
  intro i b' hb'
  rw [Nat.add_assoc, Nat.add_comm 1 i, getElem?_extend_right]
  exact hb'

/-! ## Patching and looping -/

structure Patched (c : Chunk) (operand : Nat) (c' : Chunk) : Prop where
  near : c.offset - operand - 2 ≤ 0xffff
  offset : c'.offset = c.offset
  spans : c'.spans = c.spans
  frame : ∀ i, i < operand ∨ operand + 2 ≤ i → c'.code[i]? = c.code[i]?
  distance : operand + 2 ≤ c.offset → c'.HasWord operand (c.offset - operand - 2)

theorem patched_of_patchJump {u : Unit} (h : patchJump o c = .ok u c') : c.Patched o c' := by
  rw [patchJump_apply] at h
  split_ifs at h with hfar
  cases h
  refine ⟨Nat.le_of_not_lt hfar, ?_, rfl, ?_, ?_⟩
  · simp [offset]
  · intro i hi
    rw [Array.getElem?_setIfInBounds, if_neg (by omega), Array.getElem?_setIfInBounds, if_neg (by omega)]
  · intro hinside i b hb
    have hsize : o + 2 ≤ c.code.size := hinside
    have hi : i < 2 := by
      obtain ⟨hlt, -⟩ := List.getElem?_eq_some_iff.mp hb
      rwa [length_toLittleEndian] at hlt
    obtain rfl | rfl : i = 0 ∨ i = 1 := by omega
    · rw [Array.getElem?_setIfInBounds, if_neg (by omega), Array.getElem?_setIfInBounds, if_pos (Nat.add_zero o).symm,
        if_pos (by omega)]
      exact hb
    · rw [Array.getElem?_setIfInBounds, if_pos rfl, if_pos (by rw [Array.size_setIfInBounds]; omega)]
      exact hb

theorem patchJump_eq_error_iff {e : CompileError} :
    patchJump o c = .error e c' ↔
      0xffff < c.offset - o - 2 ∧ e = .jumpTooLarge ((c.spans.spanAt? (o - 1)).getD {}) ∧ c' = c := by
  rw [patchJump_apply]
  split_ifs with hfar
  · simp [hfar, eq_comm]
  · simp [hfar]

/-- A jump back that is not refused. -/
theorem writeLoop_eq_ok {u : Unit} {start : Nat} (h : writeLoop start span c = .ok u c') :
    (-0x8000 ≤ (start : Int) - (c.offset + 3 : Nat) ∧ (start : Int) - (c.offset + 3 : Nat) < 0x8000) ∧
      c' = c.extend
        (Opcode.jumpSigned.toByte :: toLittleEndian 2 ((start - (c.offset + 3 : Nat) : Int) % 0x10000).toNat) span := by
  rw [writeLoop_apply] at h
  split_ifs at h with hfar
  cases h
  rw [writeWord_eq_extend]
  exact ⟨by omega, rfl⟩

theorem writeLoop_eq_error_iff {start : Nat} {e : CompileError} :
    writeLoop start span c = .error e c' ↔
      ((start : Int) - (c.offset + 3 : Nat) < -0x8000 ∨ 0x8000 ≤ (start : Int) - (c.offset + 3 : Nat)) ∧
        e = .jumpTooLarge span ∧ c' = c := by
  rw [writeLoop_apply]
  split_ifs with hfar
  · rw [and_iff_right hfar, EStateM.Result.error.injEq, eq_comm, @eq_comm _ c]
  · constructor
    · intro h
      cases h
    · exact fun h => absurd h.1 hfar

end Chunk

/-! ## Jumps stay where they are -/

section

variable {c c' : Chunk} {d : Draft} {ws : List Draft.Entry} {span : Span}

theorem ForwardJump.Stands.congr {j : ForwardJump} (h : j.Stands c) (hoffset : c.offset ≤ c'.offset)
    (hcode : ∀ i, j.offset ≤ i → i < j.offset + 3 → c'.code[i]? = c.code[i]?) : j.Stands c' where
  operand_eq := h.operand_eq
  inside := h.inside.trans hoffset
  patched := by
    intro t ht
    obtain ⟨hle, hlength, hnear, hword⟩ := h.patched t ht
    exact ⟨hle, hlength.trans hoffset, hnear, hword.congr fun i hi hi' => hcode i (by omega) (by omega)⟩

theorem BackwardJump.Stands.congr {j : BackwardJump} (h : j.Stands c) (hoffset : c.offset ≤ c'.offset)
    (hcode : ∀ i, j.offset ≤ i → i < j.offset + 3 → c'.code[i]? = c.code[i]?) : j.Stands c' where
  near := h.near
  inside := h.inside.trans hoffset
  opcode := by rw [hcode _ (Nat.le_refl _) (by omega), h.opcode]
  distance := h.distance.congr fun i hi hi' => hcode i (by omega) (by omega)

theorem ForwardJump.Stands.patch {j : ForwardJump} (h : j.Stands c) (hp : c.Patched j.operand c') :
    ForwardJump.Stands { j with target := some c.offset } c' where
  operand_eq := h.operand_eq
  inside := by rw [hp.offset]; exact h.inside
  patched := by
    rintro t ⟨⟩
    have hinside := h.inside
    have hnear := hp.near
    have hword := hp.distance (by rw [h.operand_eq]; exact hinside)
    rw [h.operand_eq] at hnear hword
    rw [show c.offset - (j.offset + 1) - 2 = c.offset - (j.offset + 3) by omega] at hnear hword
    exact ⟨hinside, hp.offset.ge, Nat.sub_le_iff_le_add'.mp hnear, hword⟩

namespace Draft.Sound

theorem empty : Sound {} [] :=
  ⟨rfl, .nil, by simp, by simp, by simp, by simp, by simp, by simp⟩

/-- An instruction is written behind all others. -/
theorem extend (h : d.Sound ws) (op : Opcode) (bs : List UInt8) (span : Span) :
    Sound { d with chunk := d.chunk.extend (op.toByte :: bs) span } (ws ++ [⟨op, d.chunk.offset, span⟩]) where
  entries := by
    rw [List.map_append, ← h.entries]
    exact Array.toList_push
  ascending := by
    rw [List.pairwise_append]
    refine ⟨h.ascending, List.pairwise_singleton _ _, ?_⟩
    intro w hw w' hw'
    rw [List.mem_singleton.mp hw']
    exact h.inside w hw
  inside w hw := by
    rw [Chunk.offset_extend, List.length_cons]
    rcases List.mem_append.mp hw with hw | hw
    · have := h.inside w hw
      omega
    · rw [List.mem_singleton.mp hw]
      exact Nat.lt_add_of_pos_right (Nat.succ_pos _)
  opcode w hw := by
    rcases List.mem_append.mp hw with hw | hw
    · rw [Chunk.getElem?_extend_left (h.inside w hw), h.opcode w hw]
    · rw [List.mem_singleton.mp hw]
      exact Chunk.getElem?_extend_right (i := 0)
  forward j hj := by
    obtain ⟨hstands, hmem⟩ := h.forward j hj
    have hinside := hstands.inside
    refine ⟨hstands.congr (by rw [Chunk.offset_extend]; omega) fun i _ hi => ?_, List.mem_append_left _ hmem⟩
    exact Chunk.getElem?_extend_left (by omega)
  backward j hj := by
    have hstands := h.backward j hj
    have hinside := hstands.inside
    refine hstands.congr (by rw [Chunk.offset_extend]; omega) fun i _ hi => ?_
    exact Chunk.getElem?_extend_left (by omega)
  apart j hj w hw := by
    rcases List.mem_append.mp hw with hw | hw
    · exact h.apart j hj w hw
    · rw [List.mem_singleton.mp hw]
      exact .inr (h.forward j hj).1.inside
  apart_backward := h.apart_backward

theorem writeJump (h : d.Sound ws) (op : Opcode) (span : Span) :
    (d.edit (.writeJump op span)).Sound (ws ++ [⟨op, d.chunk.offset, span⟩]) := by
  have hsound := h.extend op (toLittleEndian 2 Chunk.maxDistance) span
  rw [edit, Chunk.writeJump_eq]
  refine { hsound with forward := ?_, apart := ?_, apart_backward := ?_ }
  · intro j hj
    rcases List.mem_cons.mp hj with rfl | hj
    · refine ⟨⟨rfl, ?_, by rintro t ⟨⟩⟩, List.mem_append_right _ (List.mem_singleton_self _)⟩
      rw [Chunk.offset_extend]
      rfl
    · exact hsound.forward j hj
  · intro j hj w hw
    rcases List.mem_cons.mp hj with rfl | hj
    · rcases List.mem_append.mp hw with hw | hw
      · exact .inl (h.inside w hw).le
      · rw [List.mem_singleton.mp hw]
        exact .inl (Nat.le_refl _)
    · exact hsound.apart j hj w hw
  · intro j hj k hk
    rcases List.mem_cons.mp hj with rfl | hj
    · exact .inr (h.backward k hk).inside
    · exact h.apart_backward j hj k hk

theorem writeLoop (h : d.Sound ws) (start : Nat) (span : Span) :
    (d.edit (.writeLoop start span)).Sound (ws ++ (d.written? (.writeLoop start span)).toList) := by
  rw [edit, written?]
  cases hloop : Chunk.writeLoop start span d.chunk with
  | error e chunk =>
      obtain ⟨-, -, rfl⟩ := Chunk.writeLoop_eq_error_iff.mp hloop
      rw [Option.toList_none, List.append_nil]
      exact h
  | ok _ chunk =>
      obtain ⟨hnear, rfl⟩ := Chunk.writeLoop_eq_ok hloop
      have hsound := h.extend .jumpSigned
        (toLittleEndian 2 ((start - (d.chunk.offset + 3 : Nat) : Int) % 0x10000).toNat) span
      refine { hsound with backward := ?_, apart_backward := ?_ }
      · intro j hj
        rcases List.mem_cons.mp hj with rfl | hj
        · exact ⟨hnear, by rw [Chunk.offset_extend]; rfl, Chunk.getElem?_extend_right (i := 0), Chunk.hasWord_extend _⟩
        · exact hsound.backward j hj
      · intro j hj k hk
        rcases List.mem_cons.mp hk with rfl | hk
        · exact .inl (h.forward j hj).1.inside
        · exact h.apart_backward j hj k hk

/-- Two forward jumps are one, or do not overlap. -/
theorem apart_forward (h : d.Sound ws) {j k : ForwardJump} (hj : j ∈ d.forward) (hk : k ∈ d.forward) :
    j.offset = k.offset ∨ Apart j.offset k.offset := by
  have hjk : k.offset ≤ j.offset ∨ j.offset + 3 ≤ k.offset := h.apart j hj _ (h.forward k hk).2
  have hkj : j.offset ≤ k.offset ∨ k.offset + 3 ≤ j.offset := h.apart k hk _ (h.forward j hj).2
  unfold Apart
  omega

/-- Patching a jump changes its operand, which is no part of another instruction. -/
theorem patchJump (h : d.Sound ws) {p : ForwardJump} (hp : p ∈ d.forward) :
    (d.edit (.patchJump p.operand)).Sound ws := by
  rw [edit]
  cases hpatch : Chunk.patchJump p.operand d.chunk with
  | error e chunk =>
      obtain ⟨-, -, rfl⟩ := Chunk.patchJump_eq_error_iff.mp hpatch
      exact h
  | ok _ chunk =>
      have hpatched := Chunk.patched_of_patchJump hpatch
      have hoperand := (h.forward p hp).1.operand_eq
      have hframe : ∀ o, Apart p.offset o → ∀ i, o ≤ i → i < o + 3 → chunk.code[i]? = d.chunk.code[i]? := by
        intro o ho i hi hi'
        unfold Apart at ho
        exact hpatched.frame i (by omega)
      refine ⟨?_, h.ascending, ?_, ?_, ?_, ?_, ?_, ?_⟩
      · rw [hpatched.spans, h.entries]
      · intro w hw
        rw [hpatched.offset]
        exact h.inside w hw
      · intro w hw
        have hapart := h.apart p hp w hw
        rw [hpatched.frame w.offset (by omega), h.opcode w hw]
      · intro j' hj'
        obtain ⟨j, hj, rfl⟩ := List.mem_map.mp hj'
        obtain ⟨hstands, hmem⟩ := h.forward j hj
        unfold ForwardJump.patch
        split_ifs with hsame
        · rw [← hsame] at hpatched
          exact ⟨hstands.patch hpatched, hmem⟩
        · refine ⟨hstands.congr hpatched.offset.ge (hframe _ ?_), hmem⟩
          refine (h.apart_forward hp hj).resolve_left fun heq => hsame ?_
          rw [hstands.operand_eq, hoperand, heq]
      · intro j hj
        exact (h.backward j hj).congr hpatched.offset.ge (hframe _ (h.apart_backward p hp j hj))
      · intro j' hj' w hw
        obtain ⟨j, hj, rfl⟩ := List.mem_map.mp hj'
        rw [ForwardJump.offset_patch]
        exact h.apart j hj w hw
      · intro j' hj' k hk
        obtain ⟨j, hj, rfl⟩ := List.mem_map.mp hj'
        rw [ForwardJump.offset_patch]
        exact h.apart_backward j hj k hk

end Draft.Sound

namespace Draft

/-- **An operation that is permitted leaves each instruction and each jump standing in the code as it should.** -/
theorem edit_sound (h : d.Sound ws) {e : Edit} (he : d.Permits e) : (d.edit e).Sound (ws ++ (d.written? e).toList) := by
  cases e with
  | write op span =>
      rw [edit, Chunk.write_eq_extend]
      exact h.extend op [] span
  | writeByte op operand span =>
      rw [edit, Chunk.writeByte_eq_extend]
      exact h.extend op [operand] span
  | writeWord op operand span =>
      rw [edit, Chunk.writeWord_eq_extend]
      exact h.extend op (toLittleEndian 2 operand) span
  | writeJump op span => exact h.writeJump op span
  | patchJump operand =>
      obtain ⟨j, hj, rfl⟩ := he
      rw [written?, Option.toList_none, List.append_nil]
      exact h.patchJump hj
  | writeLoop start span => exact h.writeLoop start span

/-- **So do operations in turn.** -/
theorem editAll_sound (h : d.Sound ws) {es : List Edit} (hes : d.PermitsAll es) :
    (d.editAll es).Sound (ws ++ d.history es) := by
  induction es generalizing d ws with
  | nil =>
      rw [history, List.append_nil]
      exact h
  | cons e es ih =>
      rw [history, ← List.append_assoc]
      exact ih (edit_sound h hes.1) hes.2

/-! ## The table of spans -/

theorem Sound.spans_ascending (h : d.Sound ws) : d.chunk.spans.Ascending := by
  unfold SpanTable.Ascending
  rw [h.entries, List.map_map, List.pairwise_map]
  exact h.ascending

theorem Sound.spanAt?_eq (h : d.Sound ws) (o : Nat) (s : Span) :
    d.chunk.spans.spanAt? o = some s ↔ ∃ w ∈ ws, w.offset = o ∧ w.span = s := by
  rw [h.spans_ascending.spanAt?_eq_some_iff, h.entries, List.mem_map]
  simp only [Prod.mk.injEq]

theorem Sound.spanAt?_operand (h : d.Sound ws) {j : ForwardJump} (hj : j ∈ d.forward) :
    d.chunk.spans.spanAt? (j.operand - 1) = some j.span := by
  obtain ⟨hstands, hmem⟩ := h.forward j hj
  rw [hstands.operand_eq, Nat.add_sub_cancel, h.spanAt?_eq]
  exact ⟨_, hmem, rfl, rfl⟩

end Draft

end

/-! ## Following jumps -/

namespace Reader

def follow (distance : Decoder Int) : Decoder Opcode := do
  let op ← opcode
  let d ← distance
  jump d
  return op

theorem follow_apply {r : Reader} {op : Opcode} {distance : Decoder Int} {d : Int} {target : Nat}
    (hop : r.code[r.offset]? = some op.toByte) (hdistance : distance (r.skip 1) = .ok d (r.skip 3))
    (htarget : (r.offset : Int) + 3 + d = target) (hle : target ≤ r.code.size) :
    follow distance r = .ok op { r with offset := target } := by
  unfold follow
  rw [apply_bind_of_ok (opcode_apply hop), apply_bind_of_ok hdistance]
  exact apply_bind_of_ok (jump_apply (r := r.skip 3) htarget hle)

end Reader

section

variable {c : Chunk} {o w : Nat}

theorem Chunk.getElem?_behind (front : Array UInt8) (i : Nat) : (front ++ c.code)[front.size + i]? = c.code[i]? := by
  rw [Array.getElem?_append_right (Nat.le_add_right ..), Nat.add_sub_cancel_left]

/-- A number stands in the code, whatever is put in front. -/
theorem Chunk.HasWord.behind (h : c.HasWord (o + 1) w) (front : Array UInt8) (i : Nat) (b : UInt8)
    (hb : (toLittleEndian 2 w)[i]? = some b) : (front ++ c.code)[front.size + o + 1 + i]? = some b := by
  rw [Nat.add_assoc, Nat.add_assoc, getElem?_behind, ← Nat.add_assoc]
  exact h i b hb

/-- A forward jump that was patched leads where the code ended then. -/
theorem ForwardJump.Stands.follow {j : ForwardJump} (h : j.Stands c) (hop : c.code[j.offset]? = some j.opcode.toByte)
    {t : Nat} (ht : j.target = some t) (front : Array UInt8) :
    Reader.follow (Int.ofNat <$> Reader.word) ⟨front ++ c.code, front.size + j.offset⟩ =
      .ok j.opcode ⟨front ++ c.code, front.size + t⟩ := by
  obtain ⟨hle, hlength, hnear, hword⟩ := h.patched t ht
  refine Reader.follow_apply (d := Int.ofNat (t - (j.offset + 3))) ((Chunk.getElem?_behind ..).trans hop) ?_ ?_ ?_
  · exact apply_map_of_ok (Reader.word_apply (by omega) (hword.behind front))
  · rw [Int.ofNat_eq_natCast]
    dsimp only
    omega
  · rw [Array.size_append]
    exact Nat.add_le_add_left hlength _

/-- A jump back leads where it was aimed. -/
theorem BackwardJump.Stands.follow {j : BackwardJump} (h : j.Stands c) (hstart : j.start ≤ c.offset)
    (front : Array UInt8) :
    Reader.follow Reader.signedWord ⟨front ++ c.code, front.size + j.offset⟩ =
      .ok .jumpSigned ⟨front ++ c.code, front.size + j.start⟩ := by
  refine Reader.follow_apply ((Chunk.getElem?_behind ..).trans h.opcode)
    (Reader.signedWord_apply h.near.1 h.near.2 (h.distance.behind front)) ?_ ?_
  · dsimp only
    omega
  · rw [Array.size_append]
    exact Nat.add_le_add_left hstart _

end

/-- Where the jumps of a draft lead, whatever bytes are put in front of the code, and which jumps are refused. -/
structure Draft.Lands (d : Draft) : Prop where
  /-- A forward jump leads where the code ended when the jump was last patched. -/
  forward : ∀ j ∈ d.forward, ∀ t, j.target = some t → ∀ front : Array UInt8,
    Reader.follow (Int.ofNat <$> Reader.word) ⟨front ++ d.chunk.code, front.size + j.offset⟩ =
      .ok j.opcode ⟨front ++ d.chunk.code, front.size + t⟩
  /-- A jump back leads where it was aimed, unless that is still beyond the code. -/
  backward : ∀ j ∈ d.backward, j.offset + 3 ≤ d.chunk.offset ∧ (j.start ≤ d.chunk.offset → ∀ front : Array UInt8,
    Reader.follow Reader.signedWord ⟨front ++ d.chunk.code, front.size + j.offset⟩ =
      .ok .jumpSigned ⟨front ++ d.chunk.code, front.size + j.start⟩)
  /-- A forward jump that would lead too far is refused, and the place it comes from is blamed. -/
  patchJump : ∀ j ∈ d.forward, j.operand = j.offset + 1 ∧ j.operand + 2 ≤ d.chunk.offset ∧
    ∀ e c, Chunk.patchJump j.operand d.chunk = .error e c ↔
      65535 < (d.chunk.offset : Int) - (j.operand + 2) ∧ e = .jumpTooLarge j.span ∧ c = d.chunk
  /-- So is a jump back. -/
  writeLoop : ∀ start ≤ d.chunk.offset, ∀ span e c, Chunk.writeLoop start span d.chunk = .error e c ↔
    (start : Int) - (d.chunk.offset + 3) < -32768 ∧ e = .jumpTooLarge span ∧ c = d.chunk

theorem Draft.Sound.lands {d : Draft} {ws : List Entry} (h : d.Sound ws) : d.Lands where
  forward j hj _ ht front := (h.forward j hj).1.follow (h.opcode _ (h.forward j hj).2) ht front
  backward j hj := ⟨(h.backward j hj).inside, (h.backward j hj).follow⟩
  patchJump := by
    intro j hj
    have hoperand := (h.forward j hj).1.operand_eq
    have hinside := (h.forward j hj).1.inside
    refine ⟨hoperand, by omega, fun e c => ?_⟩
    rw [Chunk.patchJump_eq_error_iff, h.spanAt?_operand hj, Option.getD_some]
    refine and_congr_left' ?_
    omega
  writeLoop := by
    intro start hstart span e c
    rw [Chunk.writeLoop_eq_error_iff]
    refine and_congr_left' ?_
    omega

/-- **Jumps land where they were aimed**, however the operations on a chunk follow one another. -/
theorem Draft.jumps_land (es : List Edit) (hes : PermitsAll {} es) : (editAll {} es).Lands :=
  (editAll_sound .empty hes).lands

/-- Two forward jumps, the one patched while the other is still open, and a jump back over both. -/
def Edit.crossing : List Edit :=
  [.writeJump .jumpIfFalse {}, .write .pop {}, .writeJump .jump {}, .patchJump 1, .write .pop {}, .patchJump 5,
    .writeLoop 0 {}]

theorem Draft.jumps_land_crossing :
    PermitsAll {} Edit.crossing ∧ ∃ code, code = (editAll {} Edit.crossing).chunk.code ∧
      Reader.follow (Int.ofNat <$> Reader.word) ⟨#[0x40] ++ code, 1⟩ = .ok .jumpIfFalse ⟨#[0x40] ++ code, 8⟩ ∧
      Reader.follow (Int.ofNat <$> Reader.word) ⟨#[0x40] ++ code, 5⟩ = .ok .jump ⟨#[0x40] ++ code, 9⟩ ∧
      Reader.follow Reader.signedWord ⟨#[0x40] ++ code, 9⟩ = .ok .jumpSigned ⟨#[0x40] ++ code, 1⟩ := by
  have hpermits : PermitsAll {} Edit.crossing := by decide
  have hlands := jumps_land Edit.crossing hpermits
  refine ⟨hpermits, _, rfl, ?_, ?_, ?_⟩
  · exact hlands.forward ⟨.jumpIfFalse, {}, 0, 1, some 7⟩ (by decide) 7 rfl #[0x40]
  · exact hlands.forward ⟨.jump, {}, 4, 5, some 8⟩ (by decide) 8 rfl #[0x40]
  · exact (hlands.backward ⟨8, 0⟩ (by decide)).2 (by decide) #[0x40]

end Lox
