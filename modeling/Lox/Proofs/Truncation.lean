import Lox.Proofs.Confinement
import Lox.Proofs.Location

/-!
# Output that is cut off

A sink that accepts only so many bytes cuts output off, and changes nothing before it does.

* `Machine.step_of_output` : a step that is refused output prints a value;
* `Machine.limited` : the machine with a sink that accepts so many bytes more;
* `Machine.execute_truncates` : how its executions compare with those of the machine whose sink has no limit.
-/

namespace Lox

/-! ## Printing -/

theorem Opcode.toByte_of_ofByte? {b : UInt8} {op : Opcode} (h : ofByte? b = some op) : b = op.toByte := by
  unfold ofByte? at h
  split at h <;> cases h <;> rfl

theorem Reader.opcode_eq_ok {r r' : Reader} {op : Opcode} (h : opcode r = .ok op r') :
    r.code[r.offset]? = some op.toByte ∧ r' = r.skip 1 := by
  unfold opcode at h
  rw [apply_bind_of_ok (apply_get r)] at h
  obtain ⟨b, r₁, hb, h⟩ := apply_bind_eq_ok.mp h
  obtain ⟨bs, hrest, rfl⟩ := byte_eq_ok hb
  have hcode : r.code[r.offset]? = some b := by rw [← peek?, peek?_eq, hrest, List.head?_cons]
  cases hop : Opcode.ofByte? b with
  | none => rw [hop] at h; cases h
  | some op' =>
      rw [hop] at h
      cases h
      exact ⟨hcode.trans (congrArg some (Opcode.toByte_of_ofByte? hop)), rfl⟩

theorem Execution.decode_eq_ok {α : Type} {d : Decoder α} {a : α} {m m' : Machine} (h : decode d m = .ok a m') :
    ∃ r, d m.reader = .ok a r ∧ m' = { m with reader := r } := by
  unfold decode at h
  split at h <;> cases h
  exact ⟨_, ‹_›, rfl⟩

/-- A line that is refused. -/
theorem Execution.printLine_eq_error {text : String} {e : SinkError} {m m' : Machine}
    (h : printLine text m = .error (.runtime (.output e)) m') :
    ∃ sink, Sink.write (text ++ "\n") m.sink = .error e sink ∧ m' = { m with sink } := by
  unfold printLine at h
  split at h <;> cases h
  exact ⟨_, ‹_›, rfl⟩

theorem extract_append_of_le {a b : ByteArray} {n : Nat} (h : a.size ≤ n) :
    (a ++ b).extract 0 n = a ++ b.extract 0 (n - a.size) := by
  obtain ⟨k, rfl⟩ := Nat.exists_eq_add_of_le h
  rw [ByteArray.extract_eq_extract_append_extract a.size (Nat.zero_le _) h, ByteArray.extract_append_eq_left rfl,
    Nat.add_sub_cancel_left]
  exact congrArg (a ++ ·) (ByteArray.extract_append_size_add (i := 0))

theorem Sink.Extends.size_le {s s' : Sink} (h : s.Extends s') : s.written.size ≤ s'.written.size := by
  obtain ⟨w, hw⟩ := h.written
  rw [hw, ByteArray.size_append]
  exact Nat.le_add_right _ _

/-- What a refused write leaves: of what the sink would hold behind `base`, as much as there is room for. -/
theorem Sink.write_eq_error {s s' : Sink} {text : String} {e : SinkError} {base w : ByteArray} {room : Nat}
    (hlimit : s.limit = some (base.size + room)) (hwritten : s.written = base ++ w) (hfits : s.Fits)
    (h : write text s = .error e s') :
    e = .full ∧ room < (w ++ text.toUTF8).size ∧ s'.written = base ++ (w ++ text.toUTF8).extract 0 room := by
  have hsize : s.written.size = base.size + w.size := by rw [hwritten, ByteArray.size_append]
  have hroom : s.room text.toUTF8.size = min text.toUTF8.size (base.size + room - s.written.size) := by
    rw [Sink.room, hlimit]
  have hle := hfits _ hlimit
  unfold write at h
  by_cases hfull : s.room text.toUTF8.size < text.toUTF8.size
  · simp only [if_pos hfull] at h
    cases h
    have hleft : s.room text.toUTF8.size = room - w.size := by omega
    refine ⟨rfl, by rw [ByteArray.size_append]; omega, ?_⟩
    rw [extract_append_of_le (by omega), hleft, hwritten, ByteArray.append_assoc]
  · simp only [if_neg hfull] at h
    cases h

namespace Machine

variable {m m' : Machine} {e : SinkError}

/-- The step of an instruction that prints. -/
theorem step_print {v : Value} {rest : List Value} (hcode : m.reader.code[m.reader.offset]? = some Opcode.print.toByte)
    (hstack : m.stack = v :: rest) :
    step m = Execution.printLine v.text { m.goto (m.reader.offset + 1) with stack := rest } := by
  have hopcode : Execution.decode Reader.opcode m = .ok .print (m.goto (m.reader.offset + 1)) :=
    Execution.decode_opcode hcode
  have hpop : Execution.pop (m.goto (m.reader.offset + 1)) =
      .ok v { m.goto (m.reader.offset + 1) with stack := rest } := by
    unfold Execution.pop goto
    rw [hstack]
  unfold step
  rw [apply_bind_of_ok (apply_get m), apply_bind_of_ok hopcode]
  exact apply_bind_of_ok hpop

/-- A step that is refused output prints a value. -/
theorem step_of_output (h : step m = .error (.runtime (.output e)) m') :
    m.reader.code[m.reader.offset]? = some Opcode.print.toByte ∧ ∃ v rest, m.stack = v :: rest := by
  unfold step at h
  rw [apply_bind_of_ok (apply_get m)] at h
  rcases apply_bind_eq_error.mp h with hdecode | ⟨op, m₁, hdecode, hperform⟩
  · have honly : FailsOnly (fun f => ∃ fault, f = .fault fault) (Execution.decode Reader.opcode) :=
      Execution.decode_failsOnly (fun fault => ⟨fault, rfl⟩) _
    obtain ⟨fault, hfault⟩ := honly _ _ _ hdecode
    cases hfault
  · have honly : FailsOnly (fun f => f = .runtime (.output e) → op = .print) (Execution.perform m.reader.offset op) := by
      refine Execution.perform_failsOnly ?_ ?_ ?_ _
      · rintro f ⟨⟩
      · rintro e' he' ⟨⟩
        cases he'
      · rintro rfl _ _
        rfl
    obtain rfl := honly _ _ _ hperform rfl
    obtain ⟨r, hopcode, rfl⟩ := Execution.decode_eq_ok hdecode
    refine ⟨(Reader.opcode_eq_ok hopcode).1, ?_⟩
    rcases apply_bind_eq_error.mp hperform with hpop | ⟨v, m₂, hpop, -⟩
    · have honly : FailsOnly (fun f => ∃ fault, f = .fault fault) Execution.pop :=
        Execution.pop_failsOnly fun fault => ⟨fault, rfl⟩
      obtain ⟨fault, hfault⟩ := honly _ _ _ hpop
      cases hfault
    · obtain ⟨rest, hstack, -⟩ := Execution.pop_eq_ok hpop
      exact ⟨v, rest, hstack⟩

end Machine

/-! ## Executions -/

def Machine.limited (m : Machine) (room : Nat) : Machine :=
  { m with sink := { written := m.sink.written, limit := some (m.sink.written.size + room) } }

/-- How far the same execution gets with a sink that never fails. -/
def Progress.unbounded : Progress Failure Machine → Progress Failure Machine
  | running m => running m.unbounded
  | ended (.ok u m) => ended (.ok u m.unbounded)
  | ended (.error f m) => ended (.error f m.unbounded)

theorem Accord.eq_unbounded {p q : Progress Failure Machine} (h : unbounded.Progresses p q)
    (hp : ∀ e m, p ≠ .ended (.error (.runtime (.output e)) m)) : q = p.unbounded := by
  cases h with
  | running h => exact congrArg Progress.running h
  | ended h =>
      cases h with
      | ok u h => rw [h]; rfl
      | error hf h => rw [hf, h]; rfl
      | excused hf =>
          obtain ⟨e, rfl⟩ := hf
          exact absurd rfl (hp e _)
  | excused hf =>
      obtain ⟨e, rfl⟩ := hf
      exact absurd rfl (hp e _)

namespace Machine

variable {m m₁ m' : Machine} {code : Array UInt8} {spans : SpanTable} {e : SinkError} {room : Nat}

/-- The execution goes on from where it is. -/
theorem execute_add_of_running {j : Nat} (h : m.execute j code spans = .running m₁) (k : Nat) :
    m.execute (j + k) code spans = run k m₁ := by
  unfold execute at *
  cases hr : load code spans m with
  | ok _ m₀ =>
      rw [hr] at h
      exact run_add_of_running h k
  | error f m₀ => rw [hr] at h; cases h

/-- An execution that is refused output ends in a step that prints. -/
theorem exists_print_of_execute {fuel : Nat} (hm : m.sink.flushFails = false)
    (h : m.execute fuel code spans = .ended (.error (.runtime (.output e)) m')) :
    ∃ es k m₁, m.execute k code spans = .running m₁ ∧ Confined code es m m₁ ∧ m₁.reader.atEnd = false ∧
      m₁.step = .error (.runtime (.output e)) m' := by
  obtain ⟨es, m₀, hloads, hrun | ⟨f, hended⟩⟩ := execute_cases m code spans
  · rw [hrun] at h
    obtain ⟨k, m₁, hk, hfails⟩ := exists_step_of_run h
    have hconfined := hloads.confined.onward (run_onward k m₀)
    rw [hk] at hconfined
    rcases hfails with ⟨hend, hstep⟩ | hflush
    · exact ⟨es, k, m₁, (hrun k).trans hk, hconfined, hend, hstep⟩
    · unfold Execution.flush Sink.flush at hflush
      rw [show m₁.sink.flushFails = false from hconfined.sink.flushFails.trans hm] at hflush
      cases hflush
  · rw [hended] at h
    cases h

/-- **A sink that accepts only so many bytes cuts output off and does nothing else.** As long as no output is refused the
execution is that with a sink that never fails. Output is refused when an instruction prints what brings the output
beyond the room for the first time; then the sink holds as much of it as there is room for, and the rest of the machine
is as after that instruction with a sink that never fails. -/
theorem execute_truncates (m : Machine) (room : Nat) (code : Array UInt8) (spans : SpanTable) (fuel : Nat) :
    ((∀ e m', (m.limited room).execute fuel code spans ≠ .ended (.error (.runtime (.output e)) m')) →
      m.unbounded.execute fuel code spans = ((m.limited room).execute fuel code spans).unbounded) ∧
    ∀ e m', (m.limited room).execute fuel code spans = .ended (.error (.runtime (.output e)) m') →
      ∃ k m₁ m₂ out, m.unbounded.execute k code spans = .running m₁ ∧
        code[m₁.reader.offset]? = some Opcode.print.toByte ∧ m.unbounded.execute (k + 1) code spans = .running m₂ ∧
        (∀ j ≤ k, (m.unbounded.execute j code spans).machine.sink.written.size ≤ m.sink.written.size + room) ∧
        m₂.sink.written = m.sink.written ++ out ∧ room < out.size ∧
        m'.sink.written = m.sink.written ++ out.extract 0 room ∧ m'.stack = m₂.stack ∧ m'.globals = m₂.globals ∧
        e = .full := by
  have hlockstep : ∀ fuel, Accord.unbounded.Progresses ((m.limited room).execute fuel code spans)
      (m.unbounded.execute fuel code spans) := Accord.unbounded_sameCode.execute rfl
  refine ⟨Accord.eq_unbounded (hlockstep fuel), fun e m' h => ?_⟩
  obtain ⟨es, k, m₁, hk, hconfined, hend, hstep⟩ := exists_print_of_execute rfl h
  obtain ⟨hcode, v, rest, hstack⟩ := step_of_output hstep
  have hunbounded : m.unbounded.execute k code spans = .running m₁.unbounded := by
    have hk' := Accord.eq_unbounded (hlockstep k) (by rw [hk]; simp)
    rw [hk', hk]
    rfl
  rw [step_print hcode hstack] at hstep
  obtain ⟨sink, hwrite, rfl⟩ := Execution.printLine_eq_error hstep
  have hprinted : ∃ m₂, m₁.unbounded.step = .ok () m₂ ∧ m₂.sink.written = m₁.sink.written ++ (v.text ++ "\n").toUTF8 ∧
      m₂.stack = rest ∧ m₂.globals = m₁.globals := by
    rw [step_print (m := m₁.unbounded) hcode hstack, Execution.printLine, Sink.write_apply rfl]
    exact ⟨_, rfl, rfl, rfl, rfl⟩
  obtain ⟨m₂, hstep₂, hwritten, hstack₂, hglobals⟩ := hprinted
  obtain ⟨w, hw⟩ := hconfined.sink.written
  have hfits : m₁.sink.Fits := hconfined.sink.fits (by rintro limit ⟨⟩; exact Nat.le_add_right _ _)
  obtain ⟨rfl, hlong, hcut⟩ := Sink.write_eq_error hconfined.sink.limit hw hfits hwrite
  refine ⟨k, m₁.unbounded, m₂, w ++ (v.text ++ "\n").toUTF8, hunbounded, ?_, ?_, ?_, ?_, hlong, hcut, hstack₂.symm,
    hglobals.symm, rfl⟩
  · rw [← hconfined.code_eq]
    exact hcode
  · rw [execute_add_of_running hunbounded, run_succ (m := m₁.unbounded) hend 0, hstep₂]
    rfl
  · intro j hj
    have hle := (execute_onward_of_le hj m.unbounded code spans).sink.size_le
    rw [hunbounded] at hle
    exact hle.trans (hfits _ hconfined.sink.limit)
  · rw [hwritten, hw, ByteArray.append_assoc]
    rfl

/-- `true` is printed where there is room for two bytes. -/
theorem execute_truncates_midline :
    ∃ m' k m₂ out, (({} : Machine).limited 2).execute 2 #[15, 18] {} = .ended (.error (.runtime (.output .full)) m') ∧
      ({} : Machine).unbounded.execute (k + 1) #[15, 18] {} = .running m₂ ∧ 2 < out.size ∧
      m₂.sink.written = .empty ++ out ∧ m'.sink.written = .empty ++ out.extract 0 2 := by
  obtain ⟨m', hm'⟩ : ∃ m', (({} : Machine).limited 2).execute 2 #[15, 18] {} =
      .ended (.error (.runtime (.output .full)) m') := ⟨_, rfl⟩
  obtain ⟨k, m₁, m₂, out, -, -, hk, -, hwritten, hlong, hcut, -⟩ := (execute_truncates {} 2 #[15, 18] {} 2).2 _ m' hm'
  exact ⟨m', k, m₂, out, hm', hk, hlong, hwritten, hcut⟩

end Machine

end Lox
