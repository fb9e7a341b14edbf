import Lox.Proofs.Patching

/-!
# The table of spans

Beside the code of a chunk stands a table that says where each instruction comes from. However the operations on a chunk
follow one another, and whether or not they succeed, the table has one entry for each instruction that was written.

* `Draft.Tabulated` : what can be read off the table, and what operations change;
* `Draft.table_kept` : all this of every row of operations.
-/

namespace Lox

namespace Draft

variable {d : Draft} {ws : List Entry}

theorem Sound.spanAt?_shift (h : d.Sound ws) (n o : Nat) (s : Span) :
    (d.chunk.spans.shift n).spanAt? o = some s ↔ ∃ w ∈ ws, w.offset + n = o ∧ w.span = s := by
  rw [(h.spans_ascending.shift n).spanAt?_eq_some_iff, SpanTable.toList_entries_shift, h.entries, List.map_map,
    List.mem_map]
  simp only [Function.comp_apply, Prod.mk.injEq]

/-- What the table of a draft says when `ws` were written, and what is left of it by operations that patch or are
refused. -/
structure Tabulated (d : Draft) (ws : List Entry) : Prop where
  ascending : d.chunk.spans.Ascending
  inside : ∀ e ∈ d.chunk.spans.entries, e.1 < d.chunk.offset
  /-- What was written still stands where it was written. -/
  opcode : ∀ w ∈ ws, d.chunk.code[w.offset]? = some w.opcode.toByte
  /-- There is a span for an offset just where an instruction was written. -/
  spanAt? : ∀ o s, d.chunk.spans.spanAt? o = some s ↔ ∃ w ∈ ws, w.offset = o ∧ w.span = s
  /-- So it is when `n` bytes are put in front of the code. -/
  spanAt?_shift : ∀ n o s, (d.chunk.spans.shift n).spanAt? o = some s ↔ ∃ w ∈ ws, w.offset + n = o ∧ w.span = s
  /-- Patching a jump changes the two bytes behind its opcode, and nothing else. -/
  patchJump : ∀ j ∈ d.forward, j.operand = j.offset + 1 ∧ ⟨j.opcode, j.offset, j.span⟩ ∈ ws ∧
    ∀ c, Chunk.patchJump j.operand d.chunk = .ok () c → c.spans = d.chunk.spans ∧ c.offset = d.chunk.offset ∧
      ∀ i, i ≠ j.operand → i ≠ j.operand + 1 → c.code[i]? = d.chunk.code[i]?
  /-- A jump that is refused is blamed on the place that it comes from. -/
  patchJump_error : ∀ j ∈ d.forward, d.chunk.spans.spanAt? (j.operand - 1) = some j.span ∧
    ∀ e c, Chunk.patchJump j.operand d.chunk = .error e c → e = .jumpTooLarge j.span
  /-- A jump that is refused leaves the code and the table as they are. -/
  refused : (∀ operand e c, Chunk.patchJump operand d.chunk = .error e c → c = d.chunk) ∧
    ∀ start span e c, Chunk.writeLoop start span d.chunk = .error e c → c = d.chunk

theorem Sound.tabulated (h : d.Sound ws) : d.Tabulated ws where
  ascending := h.spans_ascending
  inside e he := by
    rw [Array.mem_def, h.entries] at he
    obtain ⟨w, hw, rfl⟩ := List.mem_map.mp he
    exact h.inside w hw
  opcode := h.opcode
  spanAt? := h.spanAt?_eq
  spanAt?_shift := h.spanAt?_shift
  patchJump j hj := by
    obtain ⟨hstands, hmem⟩ := h.forward j hj
    refine ⟨hstands.operand_eq, hmem, fun c hok => ?_⟩
    have hpatched := Chunk.patched_of_patchJump hok
    exact ⟨hpatched.spans, hpatched.offset, fun i hlow hhigh => hpatched.frame i (by omega)⟩
  patchJump_error j hj := by
    refine ⟨h.spanAt?_operand hj, fun e c herror => ?_⟩
    rw [(Chunk.patchJump_eq_error_iff.mp herror).2.1, h.spanAt?_operand hj, Option.getD_some]
  refused := by
    constructor
    · intro operand e c herror
      exact (Chunk.patchJump_eq_error_iff.mp herror).2.2
    · intro start span e c herror
      exact (Chunk.writeLoop_eq_error_iff.mp herror).2.2

/-- **The table of spans has the instructions that were written and nothing else**, however the operations on a chunk
follow one another. -/
theorem table_kept (es : List Edit) (hes : PermitsAll {} es) : (editAll {} es).Tabulated (history {} es) :=
  (editAll_sound .empty hes).tabulated

/-- A forward jump that is patched twice, jumps back of which the first is refused, and instructions between them. -/
def refusedLoop : List Edit :=
  [.writeJump .jump ⟨0, 1, 1, 1⟩, .writeByte .pushConstant 7 ⟨2, 3, 1, 3⟩, .patchJump 1,
    .writeLoop 40000 ⟨4, 5, 1, 5⟩, .write .pop ⟨6, 7, 1, 7⟩, .patchJump 1, .writeLoop 3 ⟨8, 9, 1, 9⟩]

theorem table_kept_refusedLoop :
    PermitsAll {} refusedLoop ∧
      (editAll {} refusedLoop).Tabulated
        [⟨.jump, 0, ⟨0, 1, 1, 1⟩⟩, ⟨.pushConstant, 3, ⟨2, 3, 1, 3⟩⟩, ⟨.pop, 5, ⟨6, 7, 1, 7⟩⟩,
          ⟨.jumpSigned, 6, ⟨8, 9, 1, 9⟩⟩] := by
  have hpermits : PermitsAll {} refusedLoop := by decide
  exact ⟨hpermits, table_kept refusedLoop hpermits⟩

end Draft

end Lox
