import Lox.Proofs.Emission
import Lox.Proofs.Lookup

/-!
# Where instructions stand

* `Compiled.HoldsLine out o l` : the line `l` of assembly stands at offset `o` of the code, and errors
  there are located at its span;
* `Compiled.Holds out o a` : so do the lines of `a` from `o` on;
* `Compiled.Carries.holds` : the assembly of a program stands behind its constants.
-/

namespace Lox

/-! ## Properties of lines in a row -/

/-- Every line of assembly that starts at offset `o` has a property in its place. -/
def Assembly.All (P : Nat → Line → Prop) : Nat → Assembly → Prop
  | _, [] => True
  | o, l :: a => P o l ∧ All P (o + l.instr.size) a

@[simp] theorem Assembly.all_nil {P : Nat → Line → Prop} {o : Nat} : All P o [] :=
  trivial

theorem Assembly.all_cons {P : Nat → Line → Prop} {o : Nat} {l : Line} {a : Assembly} :
    All P o (l :: a) ↔ P o l ∧ All P (o + l.instr.size) a :=
  Iff.rfl

theorem Assembly.all_append {P : Nat → Line → Prop} {o : Nat} {a b : Assembly} :
    All P o (a ++ b) ↔ All P o a ∧ All P (o + a.size) b := by
  induction a generalizing o with
  | nil => simp
  | cons l a ih => simp only [List.cons_append, all_cons, ih, size_cons, Nat.add_assoc, and_assoc]

/-! ## Code that holds assembly -/

namespace Compiled

/-- An instruction stands at offset `o` of the code. -/
structure HoldsLine (out : Compiled) (o : Nat) (l : Line) : Prop where
  bytes : ∀ j b, (l.instr.bytes out.pool.constants)[j]? = some b → out.code[o + j]? = some b
  span : out.spans.spanAt? o = some l.span
  fits : l.instr.Fits out.pool.constants

def Holds (out : Compiled) (o : Nat) (a : Assembly) : Prop :=
  Assembly.All out.HoldsLine o a

theorem holds_append {out : Compiled} {o : Nat} {a b : Assembly} :
    out.Holds o (a ++ b) ↔ out.Holds o a ∧ out.Holds (o + a.size) b :=
  Assembly.all_append

theorem holds_cons {out : Compiled} {o : Nat} {l : Line} {a : Assembly} :
    out.Holds o (l :: a) ↔ out.HoldsLine o l ∧ out.Holds (o + l.instr.size) a :=
  Iff.rfl

theorem HoldsLine.le_size {out : Compiled} {o : Nat} {l : Line} (h : out.HoldsLine o l) :
    o + l.instr.size ≤ out.code.size := by
  have hlen := Instr.length_bytes out.pool.constants l.instr
  have hpos := l.instr.size_pos
  obtain ⟨b, hb⟩ : ∃ b, (l.instr.bytes out.pool.constants)[l.instr.size - 1]? = some b :=
    ⟨_, List.getElem?_eq_getElem (by omega)⟩
  obtain ⟨hlt, -⟩ := Array.getElem?_eq_some_iff.mp (h.bytes _ b hb)
  omega

theorem Holds.le_size {out : Compiled} {o : Nat} {a : Assembly} (h : out.Holds o a) (ho : o ≤ out.code.size) :
    o + a.size ≤ out.code.size := by
  induction a generalizing o with
  | nil => simpa using ho
  | cons l a ih =>
      have := ih h.2 h.1.le_size
      rw [Assembly.size_cons]
      omega

end Compiled

namespace Assembly

variable {a : Assembly} {o : Nat}

theorem le_fst_of_mem_entries {e : Nat × Span} (he : e ∈ a.entries o) : o ≤ e.1 := by
  induction a generalizing o with
  | nil => exact absurd he List.not_mem_nil
  | cons l a ih =>
      rcases List.mem_cons.mp he with rfl | he
      · exact Nat.le_refl o
      · exact Nat.le_trans (Nat.le_add_right ..) (ih he)

theorem pairwise_fst_entries (o : Nat) (a : Assembly) : ((a.entries o).map Prod.fst).Pairwise (· < ·) := by
  induction a generalizing o with
  | nil => exact .nil
  | cons l a ih =>
      rw [entries_cons, List.map_cons, List.pairwise_cons]
      refine ⟨?_, ih _⟩
      intro o' ho'
      obtain ⟨e, he, rfl⟩ := List.mem_map.mp ho'
      have := le_fst_of_mem_entries he
      have := l.instr.size_pos
      omega

theorem entries_add (o n : Nat) (a : Assembly) :
    a.entries (o + n) = (a.entries o).map fun (o, span) => (o + n, span) := by
  induction a generalizing o with
  | nil => rfl
  | cons l a ih => rw [entries_cons, entries_cons, List.map_cons, ← ih, Nat.add_right_comm]

end Assembly

namespace Compiled.Carries

variable {out : Compiled} {a pre post : Assembly} {l : Line}

theorem entries_spans (h : out.Carries a) : out.spans.entries.toList = a.entries out.start := by
  have hshift := Assembly.entries_add 0 out.start a
  rw [Nat.zero_add] at hshift
  rw [Compiled.spans, SpanTable.shift, Array.toList_map, h.spans, hshift]

theorem spans_ascending (h : out.Carries a) : out.spans.Ascending := by
  unfold SpanTable.Ascending
  rw [h.entries_spans]
  exact a.pairwise_fst_entries out.start

theorem spanAt?_start (h : out.Carries (pre ++ l :: post)) :
    out.spans.spanAt? (out.start + pre.size) = some l.span := by
  rw [h.spans_ascending.spanAt?_eq_some_iff, h.entries_spans, Assembly.entries_append]
  exact List.mem_append_right _ List.mem_cons_self

theorem code_eq (h : out.Carries a) :
    out.code.toList = out.pool.bytes.toList ++ a.bytes out.pool.constants := by
  simp [Compiled.code, h.code]

theorem holdsLine (h : out.Carries (pre ++ l :: post)) :
    out.HoldsLine (out.start + pre.size) l where
  bytes := by
    intro j b hj
    have hlen : out.start + pre.size = (out.pool.bytes.toList ++ pre.bytes out.pool.constants).length := by
      rw [List.length_append, Assembly.length_bytes]; rfl
    have hcode : out.code.toList = (out.pool.bytes.toList ++ pre.bytes out.pool.constants) ++
        (l.instr.bytes out.pool.constants ++ post.bytes out.pool.constants) := by
      rw [h.code_eq]; simp
    have hlt : j < (l.instr.bytes out.pool.constants).length := (List.getElem?_eq_some_iff.mp hj).1
    rw [← Array.getElem?_toList, hcode, hlen, List.getElem?_append_right (by omega),
      List.getElem?_append_left (by omega), Nat.add_sub_cancel_left, hj]
  span := h.spanAt?_start
  fits := h.fits l (by simp)

theorem holds_suffix (h : out.Carries (pre ++ a)) : out.Holds (out.start + pre.size) a := by
  induction a generalizing pre with
  | nil => trivial
  | cons l a ih =>
      refine Compiled.holds_cons.mpr ⟨h.holdsLine, ?_⟩
      have hnext : out.Carries ((pre ++ [l]) ++ a) := by simpa using h
      simpa [Nat.add_assoc] using ih hnext

/-- The assembly of a compiled program stands behind its constants. -/
theorem holds (h : out.Carries a) : out.Holds out.start a :=
  @holds_suffix out a [] h

theorem size_code (h : out.Carries a) : out.code.size = out.start + a.size := by
  have := congrArg List.length h.code_eq
  rwa [Array.length_toList, List.length_append, Assembly.length_bytes] at this

end Compiled.Carries

end Lox
