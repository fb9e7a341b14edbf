import Lox.Proofs.Entries
import Lox.Proofs.Failures
import Lox.Proofs.Lockstep

/-!
# What any code can do

Code need not come from the compiler, and the machine may have executed other code before.

* `Machine.Onward` : what instructions can change; `Machine.step_onward` says so of one step, `Machine.run_onward` of a
  run;
* `Machine.Confined` : what holds at every moment of an execution;
* `Accord.sameContent` : machines whose globals have the same content;
* `Machine.execute_confined` : all this of every execution, and that nothing depends on what a former one has left but
  the globals.
-/

namespace Lox

/-! ## Sinks -/

namespace Sink

def Fits (s : Sink) : Prop :=
  ∀ limit, s.limit = some limit → s.written.size ≤ limit

/-- The same sink, with more written to it. -/
structure Extends (s s' : Sink) : Prop where
  written : ∃ w, s'.written = s.written ++ w
  limit : s'.limit = s.limit
  flushFails : s'.flushFails = s.flushFails
  fits : s.Fits → s'.Fits

variable {s s' s'' : Sink}

theorem Extends.refl (s : Sink) : Extends s s :=
  ⟨⟨.empty, by simp⟩, rfl, rfl, id⟩

theorem Extends.trans (h : Extends s s') (h' : Extends s' s'') : Extends s s'' := by
  obtain ⟨w, hw⟩ := h.written
  obtain ⟨w', hw'⟩ := h'.written
  exact ⟨⟨w ++ w', by rw [hw', hw, ByteArray.append_assoc]⟩, h'.limit.trans h.limit, h'.flushFails.trans h.flushFails,
    fun hs => h'.fits (h.fits hs)⟩

instance : Trans Extends Extends Extends := ⟨Extends.trans⟩

/-- No more is kept than there is room for. -/
theorem write_extends (text : String) (s : Sink) : Keeps Extends (write text) s := by
  have hkept : ∀ bytes : ByteArray, s.Extends { s with written := s.written ++ bytes.extract 0 (s.room bytes.size) } := by
    intro bytes
    refine ⟨⟨_, rfl⟩, rfl, rfl, fun hs limit hlimit => ?_⟩
    have hfits := hs limit hlimit
    have hroom : s.room bytes.size = min bytes.size (limit - s.written.size) := by
      rw [room, show s.limit = some limit from hlimit]
    simp only [ByteArray.size_append, ByteArray.size_extract]
    omega
  unfold Keeps write
  dsimp only
  split_ifs <;> exact hkept _

end Sink

/-! ## Instructions -/

namespace Machine

/-- What instructions can change. They move the reader in the code; define globals named by constants, never remove
any, and add to the output. -/
structure Onward (m m' : Machine) : Prop where
  reader : m.reader.Inside m'.reader
  constants : m'.constants = m.constants
  kept : ∀ name ∈ m.globals, name ∈ m'.globals
  named : ∀ name ∈ m'.globals, name ∈ m.globals ∨ Value.string name ∈ m.constants
  sink : m.sink.Extends m'.sink

variable {m m' m'' : Machine}

theorem Onward.refl (m : Machine) : Onward m m where
  reader := .refl _
  constants := rfl
  kept _ h := h
  named _ h := .inl h
  sink := .refl _

theorem Onward.trans (h : Onward m m') (h' : Onward m' m'') : Onward m m'' where
  reader := h.reader.trans h'.reader
  constants := h'.constants.trans h.constants
  kept name hname := h'.kept name (h.kept name hname)
  named name hname := by
    rcases h'.named name hname with hname | hname
    · exact h.named name hname
    · exact .inr (h.constants ▸ hname)
  sink := h.sink.trans h'.sink

instance : Trans Onward Onward Onward := ⟨Onward.trans⟩

theorem Onward.setReader {r : Reader} (h : m.reader.Inside r) : Onward m { m with reader := r } :=
  { Onward.refl m with reader := h }

theorem Onward.setStack (vs : List Value) : Onward m { m with stack := vs } :=
  { Onward.refl m with }

theorem Onward.insertGlobal {name : String} (h : Value.string name ∈ m.constants) (v : Value) :
    Onward m { m with globals := m.globals.insert name v } :=
  { Onward.refl m with
    kept := fun other hother => Std.TreeMap.mem_insert.mpr (.inr hother)
    named := fun other hother => by
      rcases Std.TreeMap.mem_insert.mp hother with hname | hother
      · exact .inr (Std.LawfulEqOrd.eq_of_compare hname ▸ h)
      · exact .inl hother }

end Machine

namespace Execution

open Machine (Onward)

variable {m m' : Machine} {α : Type}

theorem decode_onward {d : Decoder α} (hd : ∀ r, Keeps Reader.Inside d r) (m : Machine) : Keeps Onward (decode d) m := by
  have h := hd m.reader
  unfold Keeps decode at *
  cases hr : d m.reader with
  | ok a r => rw [hr] at h; exact .setReader h
  | error f r => rw [hr] at h; exact .setReader h

theorem push_onward (v : Value) (m : Machine) : Keeps Onward (push v) m :=
  .setStack _

theorem pop_onward (m : Machine) : Keeps Onward pop m := by
  unfold Keeps pop
  cases m.stack with
  | nil => exact .refl m
  | cons v rest => exact .setStack rest

theorem top_onward (m : Machine) : Keeps Onward top m := by
  refine .bind (.refl m) fun _ m₁ _ => ?_
  split <;> exact .refl m₁

theorem place_onward (slot : UInt8) (m : Machine) : Keeps Onward (place slot) m := by
  refine .bind (.refl m) fun _ m₁ _ => ?_
  dsimp only
  split <;> exact .refl m₁

theorem constant_onward (m : Machine) : Keeps Onward constant m := by
  refine .bind (decode_onward Reader.byte_inside m) fun _ m₁ _ => .bind (.refl m₁) fun _ m₂ _ => ?_
  split <;> exact .refl m₂

theorem globalName_onward (m : Machine) : Keeps Onward globalName m := by
  refine .bind (constant_onward m) fun _ m₁ _ => ?_
  split <;> exact .refl m₁

theorem raise_onward (offset : Nat) (e : Span → RuntimeError) (m : Machine) :
    Keeps Onward (raise offset e : Execution α) m :=
  .bind (.refl m) fun _ m₁ _ => .refl m₁

theorem printLine_onward (text : String) (m : Machine) : Keeps Onward (printLine text) m := by
  have hwrite := Sink.write_extends (text ++ "\n") m.sink
  unfold Keeps printLine at *
  cases hr : Sink.write (text ++ "\n") m.sink with
  | ok _ sink => rw [hr] at hwrite; exact { Onward.refl m with sink := hwrite }
  | error e sink => rw [hr] at hwrite; exact { Onward.refl m with sink := hwrite }

theorem flush_onward (m : Machine) : Keeps Onward flush m := by
  unfold Keeps flush Sink.flush
  cases m.sink.flushFails <;> exact .refl m

theorem jumpWhen_onward (holds : Bool) (m : Machine) : Keeps Onward (jumpWhen holds) m := by
  refine .bind (decode_onward Reader.word_inside m) fun _ m₁ _ => .bind (top_onward m₁) fun v m₂ _ => ?_
  by_cases hv : v.truthy = holds
  · rw [if_pos hv]
    exact decode_onward (Reader.jump_inside _) m₂
  · rw [if_neg hv]
    exact .refl m₂

theorem mem_constants_of_constant {i : UInt8} {v : Value} (h : constant m = .ok (i, v) m') : v ∈ m'.constants := by
  obtain ⟨j, m₁, -, h⟩ := apply_bind_eq_ok.mp h
  rw [apply_bind_of_ok (apply_get m₁)] at h
  cases hv : m₁.constants[j.toNat]? with
  | some u =>
      rw [hv] at h
      cases h
      exact Array.mem_of_getElem? hv
  | none => rw [hv] at h; cases h

/-- The name of a global is a constant. -/
theorem mem_constants_of_globalName {name : String} (h : globalName m = .ok name m') :
    Value.string name ∈ m'.constants := by
  obtain ⟨⟨i, v⟩, m₁, hconstant, h⟩ := apply_bind_eq_ok.mp h
  cases v with
  | string s =>
      cases h
      exact mem_constants_of_constant hconstant
  | nil => cases h
  | boolean b => cases h
  | number x => cases h

theorem perform_onward (offset : Nat) (op : Opcode) (m : Machine) : Keeps Onward (perform offset op) m := by
  cases op with
  | nop => exact .refl m
  | binary op =>
      refine .bind (pop_onward m) fun b m₁ _ => .bind (pop_onward m₁) fun a m₂ _ => ?_
      cases op.apply a b with
      | ok v => exact push_onward v m₂
      | error r => cases r <;> exact raise_onward ..
  | unary op =>
      refine .bind (pop_onward m) fun v m₁ _ => ?_
      cases op.apply v with
      | ok r => exact push_onward r m₁
      | error r => exact raise_onward ..
  | pushConstant => exact .bind (constant_onward m) fun _ m₁ _ => push_onward _ m₁
  | pushNil => exact push_onward _ m
  | pushTrue => exact push_onward _ m
  | pushFalse => exact push_onward _ m
  | pop => exact .bind (pop_onward m) fun _ m₁ _ => .refl m₁
  | print => exact .bind (pop_onward m) fun _ m₁ _ => printLine_onward _ m₁
  | defineGlobal =>
      refine .bind (globalName_onward m) fun name m₁ hname => .bind (pop_onward m₁) fun v m₂ hpop => ?_
      have hmem := mem_constants_of_globalName hname
      obtain ⟨rest, -, rfl⟩ := pop_eq_ok hpop
      exact Onward.insertGlobal (m := { m₁ with stack := rest }) hmem v
  | setGlobal =>
      refine .bind (globalName_onward m) fun name m₁ hname => .bind (top_onward m₁) fun v m₂ htop => ?_
      obtain ⟨-, rfl⟩ := top_eq_ok htop
      refine .bind (.refl m₂) fun m₃ m₄ hget => ?_
      cases hget
      split
      · exact .insertGlobal (mem_constants_of_globalName hname) v
      · exact raise_onward ..
  | getGlobal =>
      refine .bind (globalName_onward m) fun name m₁ _ => .bind (.refl m₁) fun _ m₂ _ => ?_
      split
      · exact push_onward _ m₂
      · exact raise_onward ..
  | setLocal =>
      refine .bind (decode_onward Reader.byte_inside m) fun slot m₁ _ => .bind (top_onward m₁) fun v m₂ _ => ?_
      exact .bind (place_onward slot m₂) fun i m₃ _ => .setStack _
  | getLocal =>
      refine .bind (decode_onward Reader.byte_inside m) fun slot m₁ _ => .bind (place_onward slot m₁) fun i m₂ _ => ?_
      exact .bind (.refl m₂) fun _ m₃ _ => push_onward _ m₃
  | jump =>
      exact .bind (decode_onward Reader.word_inside m) fun _ m₁ _ => decode_onward (Reader.jump_inside _) m₁
  | jumpIfFalse => exact jumpWhen_onward false m
  | jumpIfTrue => exact jumpWhen_onward true m
  | jumpSigned =>
      exact .bind (decode_onward Reader.signedWord_inside m) fun _ m₁ _ => decode_onward (Reader.jump_inside _) m₁
  | trap => exact .refl m

end Execution

/-! ## Runs -/

namespace Machine

variable {m m' : Machine}

/-- **What a step can change.** -/
theorem step_onward (m : Machine) : Keeps Onward step m := by
  refine .bind (.refl m) fun _ m₁ _ => .bind (Execution.decode_onward Reader.opcode_inside m₁) fun op m₂ _ => ?_
  exact Execution.perform_onward _ op m₂

end Machine

def Progress.machine : Progress Failure Machine → Machine
  | running m => m
  | ended r => finalState r

namespace Machine

variable {m m' : Machine}

/-- **What a run can change.** -/
theorem run_onward (fuel : Nat) (m : Machine) : Onward m (run fuel m).machine := by
  induction fuel generalizing m with
  | zero => exact .refl m
  | succ fuel ih =>
      rw [run]
      split
      · exact Execution.flush_onward m
      · have hstep := step_onward m
        unfold Keeps at hstep
        cases hr : step m with
        | ok _ m₁ =>
            rw [hr] at hstep
            exact hstep.trans (ih m₁)
        | error f m₁ =>
            rw [hr] at hstep
            exact hstep

theorem run_add_of_running {j : Nat} (h : run j m = .running m') (k : Nat) : run (j + k) m = run k m' := by
  induction j generalizing m with
  | zero =>
      cases h
      rw [Nat.zero_add]
  | succ j ih =>
      rw [Nat.add_right_comm, run]
      rw [run] at h
      split at h
      · cases h
      · rename_i hend
        rw [if_neg hend]
        cases hr : step m with
        | ok _ m₁ =>
            rw [hr] at h
            exact ih h
        | error f m₁ =>
            rw [hr] at h
            cases h

/-- Whatever was done up to a moment of a run stays done. -/
theorem run_onward_of_le {j k : Nat} (h : j ≤ k) (m : Machine) : Onward (run j m).machine (run k m).machine := by
  obtain ⟨i, rfl⟩ := Nat.exists_eq_add_of_le h
  cases hj : run j m with
  | running m₁ =>
      rw [run_add_of_running hj]
      exact run_onward i m₁
  | ended r =>
      rw [run_add_of_ended hj]
      exact .refl _

end Machine

/-! ## Executions -/

open ConstantEntry (SpellAll Numbered)

namespace Machine

variable {m m' m'' : Machine} {code : Array UInt8} {spans : SpanTable} {es : List ConstantEntry}

/-- What holds at every moment of an execution that was started with the machine `m`, the code having the entries `es`
at its beginning. -/
structure Confined (code : Array UInt8) (es : List ConstantEntry) (m m' : Machine) : Prop where
  code_eq : m'.reader.code = code
  offset_le : m'.reader.offset ≤ code.size
  constants_eq : m'.constants = (es.map (·.constant.value)).toArray
  kept : ∀ name ∈ m.globals, name ∈ m'.globals
  named : ∀ name ∈ m'.globals, name ∉ m.globals → ∃ e ∈ es, e.constant = .string name
  sink : m.sink.Extends m'.sink

/-- The constants that are loaded from the beginning of code. -/
theorem Loads.confined (h : (m.start code spans).Loads es m') : Confined code es m m' := by
  obtain ⟨r, hr, rfl⟩ := h.moved
  exact
    { code_eq := hr.code
      offset_le := hr.offset (Nat.zero_le _)
      constants_eq := Array.empty_append
      kept := fun _ h => h
      named := fun _ h hnot => absurd h hnot
      sink := .refl _ }

theorem Confined.onward (h : Confined code es m m') (h' : Onward m' m'') : Confined code es m m'' where
  code_eq := h'.reader.code.trans h.code_eq
  offset_le := by
    have hoffset := h'.reader.offset
    rw [h.code_eq] at hoffset
    exact hoffset h.offset_le
  constants_eq := h'.constants.trans h.constants_eq
  kept name hname := h'.kept name (h.kept name hname)
  named name hname hnot := by
    rcases h'.named name hname with hname | hconstant
    · exact h.named name hname hnot
    · rw [h.constants_eq, List.mem_toArray, List.mem_map] at hconstant
      obtain ⟨e, he, hvalue⟩ := hconstant
      refine ⟨e, he, ?_⟩
      cases hc : e.constant with
      | number x => rw [hc] at hvalue; cases hvalue
      | string s => rw [hc] at hvalue; cases hvalue; rfl
  sink := h.sink.trans h'.sink

/-- An execution is a run of the machine that has loaded the constants, or ends while it loads them. -/
theorem execute_cases (m : Machine) (code : Array UInt8) (spans : SpanTable) :
    ∃ es m₁, (m.start code spans).Loads es m₁ ∧
      ((∀ fuel, m.execute fuel code spans = run fuel m₁) ∨
        ∃ f, ∀ fuel, m.execute fuel code spans = .ended (.error (.fault f) m₁)) := by
  obtain ⟨es, hes⟩ := Execution.loadConstants_found code.size (m.start code spans)
  have hload : load code spans m = Execution.loadConstants code.size (m.start code spans) := rfl
  unfold execute
  rw [← hload] at hes
  cases hr : load code spans m with
  | ok _ m₁ =>
      rw [hr] at hes
      exact ⟨es, m₁, hes, .inl fun fuel => rfl⟩
  | error f m₁ =>
      rw [hr] at hes
      have honly : FailsOnly (fun f => ∃ fault, f = .fault fault) (Execution.loadConstants code.size) :=
        Execution.loadConstants_failsOnly (fun fault => ⟨fault, rfl⟩) _
      obtain ⟨fault, rfl⟩ := honly _ f m₁ hr
      exact ⟨es, m₁, hes, .inr ⟨fault, fun fuel => rfl⟩⟩

/-- Whatever was done up to a moment of an execution stays done. -/
theorem execute_onward_of_le {j k : Nat} (h : j ≤ k) (m : Machine) (code : Array UInt8) (spans : SpanTable) :
    Onward (m.execute j code spans).machine (m.execute k code spans).machine := by
  obtain ⟨es, m₁, -, hrun | ⟨f, hended⟩⟩ := execute_cases m code spans
  · rw [hrun, hrun]
    exact run_onward_of_le h m₁
  · rw [hended, hended]
    exact .refl _

/-- Code with more entries than an index can count is not executed: the first entry that does not have the index at
which it stands is refused, and this is the one behind 256 others if no other is. -/
theorem execute_of_spellAll {bytes behind : List UInt8} (hcode : code.toList = bytes ++ behind)
    (hes : SpellAll es bytes) (hlength : 256 < es.length) (m : Machine) (spans : SpanTable) :
    ∃ before e after m', es = before ++ e :: after ∧ before.length ≤ 256 ∧ Numbered 0 before ∧
      e.index.toNat ≠ before.length ∧ ∀ fuel, m.execute fuel code spans =
        .ended (.error (.fault (.constantIndexMismatch before.length e.index)) m') := by
  have hnot : ¬Numbered 0 es := fun h => by
    have := h.length_le (Nat.zero_le _)
    omega
  obtain ⟨before, e, after, rfl, hbefore, he⟩ := ConstantEntry.exists_of_not_numbered hnot
  obtain ⟨bytes₁, bytes₂, bytes₃, rfl, hes₁, he₂⟩ := hes.split
  have hrest : (m.start code spans).reader.rest = bytes₁ ++ (bytes₂ ++ (bytes₃ ++ behind)) := by
    rw [Reader.rest, start, List.drop_zero, hcode]
    simp only [List.append_assoc]
  have hsize : before.length < code.size := by
    obtain ⟨content, rfl⟩ := he₂.eq_cons
    have hle := hes₁.length_le
    rw [← Array.length_toList, hcode]
    simp only [List.length_append, List.length_cons]
    omega
  obtain ⟨m', hm'⟩ := Execution.loadConstants_mismatch hes₁ he₂ hrest hbefore he hsize
  have hle := hbefore.length_le (Nat.zero_le _)
  refine ⟨before, e, after, m', rfl, by omega, hbefore, by simpa using he, fun fuel => ?_⟩
  have hload : load code spans m =
      .error (.fault (.constantIndexMismatch before.length e.index)) m' := by
    rw [← Nat.zero_add before.length]
    exact hm'
  rw [execute, hload]

end Machine

/-! ## What a former execution leaves -/

/-- The machines differ at most in how the same globals are stored. -/
structure Machine.SameContent (m n : Machine) : Prop where
  reader : m.reader = n.reader
  spans : m.spans = n.spans
  stack : m.stack = n.stack
  constants : m.constants = n.constants
  globals : ∀ name : String, m.globals[name]? = n.globals[name]?
  sink : m.sink = n.sink

namespace Accord

def sameContent : Accord where
  machines := Machine.SameContent
  failures f g := f = g
  excused _ := False

theorem sameContent_sameCode : sameContent.SameCode where
  stack h := h.stack
  globals h := h.globals
  setStack vs h := { h with stack := rfl }
  insertGlobal name v h :=
    { h with globals := fun other => by simp only [Std.TreeMap.getElem?_insert, h.globals] }
  fault f := rfl
  printLine := by
    intro m n text h
    unfold Execution.printLine
    rw [h.sink]
    cases Sink.write (text ++ "\n") n.sink with
    | ok _ sink => exact .ok () { h with sink := rfl }
    | error e sink => exact .error rfl { h with sink := rfl }
  reader h := h.reader
  constants h := h.constants
  setReader r h := { h with reader := rfl }
  setConstants vs h := { h with constants := rfl }
  raise := by
    intro m n offset e _ h
    unfold Execution.raise
    rw [apply_bind_of_ok (apply_get m), apply_bind_of_ok (apply_get n), h.spans]
    exact .error rfl h
  flush := by
    intro m n h
    unfold Execution.flush
    rw [h.sink]
    cases Sink.flush n.sink with
    | ok _ sink => exact .ok () { h with sink := rfl }
    | error e sink => exact .error rfl { h with sink := rfl }

end Accord

/-- **What any code can do.** At its beginning the code has some entries, 256 at most. At every moment of an execution
the reader is in the code; the constants are those of the entries; no global has gone, and each new one is named by an
entry; and the output stands behind what the sink held before, and stays there. If the code has a 257th entry, it is
refused. Machines with the same globals and the same sink come equally far, whatever else they were left with. -/
theorem Machine.execute_confined (m : Machine) (code : Array UInt8) (spans : SpanTable) :
    (∃ es bytes behind, code.toList = bytes ++ behind ∧ SpellAll es bytes ∧ Numbered 0 es ∧ es.length ≤ 256 ∧
      ∀ fuel, Confined code es m (m.execute fuel code spans).machine ∧
        ∀ k, fuel ≤ k → Onward (m.execute fuel code spans).machine (m.execute k code spans).machine) ∧
    (∀ es bytes behind, code.toList = bytes ++ behind → SpellAll es bytes → 256 < es.length →
      ∃ before e after m', es = before ++ e :: after ∧ before.length ≤ 256 ∧ Numbered 0 before ∧
        e.index.toNat ≠ before.length ∧ ∀ fuel, m.execute fuel code spans =
          .ended (.error (.fault (.constantIndexMismatch before.length e.index)) m')) ∧
    ∀ n : Machine, (∀ name : String, m.globals[name]? = n.globals[name]?) → m.sink = n.sink → ∀ fuel,
      Accord.sameContent.Progresses (m.execute fuel code spans) (n.execute fuel code spans) := by
  refine ⟨?_, fun es bytes behind hcode hes hlength => execute_of_spellAll hcode hes hlength m spans, ?_⟩
  · obtain ⟨es, m₁, hloads, hexecute⟩ := execute_cases m code spans
    obtain ⟨bytes, behind, hrest, hes⟩ := hloads.spelt
    have hle := hloads.numbered.length_le (Nat.zero_le _)
    refine ⟨es, bytes, behind, hrest, hes, hloads.numbered, by simpa [start] using hle, fun fuel =>
      ⟨?_, fun k hk => execute_onward_of_le hk m code spans⟩⟩
    rcases hexecute with hrun | ⟨f, hended⟩
    · rw [hrun]
      exact hloads.confined.onward (run_onward fuel m₁)
    · rw [hended]
      exact hloads.confined
  · intro n hglobals hsink fuel
    have hstart : (m.start code spans).SameContent (n.start code spans) := ⟨rfl, rfl, rfl, rfl, hglobals, hsink⟩
    exact Accord.sameContent_sameCode.execute hstart fuel

def ConstantEntry.blanks (n : Nat) : List ConstantEntry :=
  (List.range n).map fun i => ⟨UInt8.ofNat i, .string ""⟩

theorem Machine.execute_confined_crowded :
    ∃ code m', SpellAll (ConstantEntry.blanks 257) code ∧ ∀ fuel, Machine.execute fuel code.toArray {} {} =
      .ended (.error (.fault (.constantIndexMismatch 256 0)) m') := by
  have hspell : ∀ is : List Nat, ∃ code, SpellAll (is.map fun i => ⟨UInt8.ofNat i, .string ""⟩) code := by
    intro is
    induction is with
    | nil => exact ⟨[], .nil⟩
    | cons i is ih =>
        obtain ⟨code, hcode⟩ := ih
        exact ⟨_, .cons (.string _ "" (by simp)) hcode⟩
  obtain ⟨code, hcode⟩ := hspell (List.range 257)
  obtain ⟨-, hrefused, -⟩ := Machine.execute_confined {} code.toArray {}
  obtain ⟨before, e, after, m', hes, hle, -, hindex, hexecute⟩ :=
    hrefused _ code [] (by simp) hcode (by rw [List.length_map, List.length_range]; decide)
  have hget := congrArg (·[before.length]?) hes
  simp only [List.getElem?_map, List.getElem?_append_right (Nat.le_refl _), Nat.sub_self, List.getElem?_cons_zero,
    List.getElem?_range (Nat.lt_succ_of_le hle), Option.map_some, Option.some.injEq] at hget
  subst hget
  have hlast : before.length = 256 := by
    by_contra hne
    exact hindex (UInt8.toNat_ofNat_of_lt' (by simp [UInt8.size]; omega))
  rw [hlast] at hexecute
  exact ⟨code, m', hcode, hexecute⟩

end Lox
