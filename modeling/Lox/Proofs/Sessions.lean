import Lox.Proofs.Listings
import Lox.Proofs.Preservation
import Lox.Session

/-!
# What the options of a session change

The options of a session ask for the listing of each program, and keep it from being run. They change nothing else.

* `Accord.behind` : machines whose output stands behind different texts;
* `Session.Alike` : evaluations that come equally far;
* `Session.showListing_of_disassemble`, `Session.showListing_of_compileOnly` : what is written before a program runs;
* `Session.optionsOnlyShow` : what the options change.
-/

namespace Lox

/-! ## Output behind different texts -/

namespace Accord

/-- The machines have sinks that never fail, and wrote the same behind what the sinks held, `w` and `w'`. -/
def behind (w w' : ByteArray) : Accord where
  machines m n := ∃ out, m.sink = { written := w ++ out } ∧ n = { m with sink := { written := w' ++ out } }
  failures f g := f = g
  excused _ := False

theorem behind_sameCode (w w' : ByteArray) : (behind w w').SameCode where
  stack := by rintro m n ⟨out, hm, rfl⟩; rfl
  globals := by rintro m n ⟨out, hm, rfl⟩ name; rfl
  setStack := by rintro m n vs ⟨out, hm, rfl⟩; exact ⟨out, hm, rfl⟩
  insertGlobal := by rintro m n name v ⟨out, hm, rfl⟩; exact ⟨out, hm, rfl⟩
  fault f := rfl
  printLine := by
    rintro m n text ⟨out, hm, rfl⟩
    unfold Execution.printLine
    rw [hm, Sink.write_apply rfl, Sink.write_apply rfl]
    refine .ok () ⟨out ++ (text ++ "\n").toUTF8, ?_, ?_⟩
    · simp [ByteArray.append_assoc]
    · simp [ByteArray.append_assoc]
  reader := by rintro m n ⟨out, hm, rfl⟩; rfl
  constants := by rintro m n ⟨out, hm, rfl⟩; rfl
  setReader := by rintro m n r ⟨out, hm, rfl⟩; exact ⟨out, hm, rfl⟩
  setConstants := by rintro m n vs ⟨out, hm, rfl⟩; exact ⟨out, hm, rfl⟩
  raise := by
    rintro m n offset e - ⟨out, hm, rfl⟩
    exact .error rfl ⟨out, hm, rfl⟩
  flush := by
    rintro m n ⟨out, hm, rfl⟩
    unfold Execution.flush
    rw [hm]
    exact .ok () ⟨out, rfl, rfl⟩

end Accord

/-! ## Sessions -/

namespace Session

variable {s s' t : Session} {p : Compiled} {source text : String}

/-- Both evaluations have come equally far, with machines that are alike. -/
inductive Alike (A : Accord) : Progress Error Session → Progress Error Session → Prop where
  | running {s t : Session} (h : A.machines s.machine t.machine) : Alike A (.running s) (.running t)
  | ok {s t : Session} (h : A.machines s.machine t.machine) : Alike A (.ended (.ok () s)) (.ended (.ok () t))
  | error (e : Error) {s t : Session} (h : A.machines s.machine t.machine) :
      Alike A (.ended (.error e s)) (.ended (.error e t))

def reached (s : Session) : Progress Failure Machine → Progress Error Session
  | .running machine => .running { s with machine }
  | .ended (.ok _ machine) => .ended (.ok () { s with machine })
  | .ended (.error e machine) => .ended (.error (.ofFailure e) { s with machine })

theorem reached_alike {w w' : ByteArray} {r r' : Progress Failure Machine} (h : (Accord.behind w w').Progresses r r')
    (s t : Session) : Alike (Accord.behind w w') (s.reached r) (t.reached r') := by
  cases h with
  | running h => exact .running h
  | ended h =>
      cases h with
      | ok _ h => exact .ok h
      | error hf h =>
          cases hf
          exact .error _ h
      | excused hf => exact hf.elim
  | excused hf => exact hf.elim

/-- A program that compiles is executed once its listing is shown. -/
theorem eval_eq_reached (hp : compileText source = .ok p) (hshow : showListing p s = .ok () s')
    (hrun : s'.options.compileOnly = false) (fuel : Nat) :
    eval fuel source s = s'.reached (s'.machine.execute fuel p.code p.spans) := by
  unfold eval
  rw [hp]
  dsimp only
  rw [hshow]
  dsimp only
  rw [if_neg (by simp [hrun]), load, Machine.execute]
  cases Machine.load p.code p.spans s'.machine with
  | ok _ m =>
      dsimp only
      rw [run]
      dsimp only
      cases Machine.run fuel m with
      | running m' => rfl
      | ended r => cases r <;> rfl
  | error e m => rfl

def wrote (s : Session) (text : String) : Session :=
  { s with machine := { s.machine with sink := { s.machine.sink with
      written := s.machine.sink.written ++ text.toUTF8 } } }

theorem wrote_wrote (s : Session) (text text' : String) : (s.wrote text).wrote text' = s.wrote (text ++ text') := by
  simp [wrote, ByteArray.append_assoc]

theorem onSink_write (hs : s.machine.sink.NeverFails) (text : String) :
    onSink (Sink.write text) s = .ok () (s.wrote text) := by
  rw [onSink, Sink.write_apply hs.limit]
  rfl

theorem onSink_flush (hs : s.machine.sink.NeverFails) : onSink Sink.flush s = .ok () s := by
  unfold onSink Sink.flush
  rw [hs.flush]
  rfl

theorem showListing_of_plain (h : s.options = {}) (p : Compiled) : showListing p s = .ok () s := by
  unfold showListing
  rw [apply_bind_of_ok (apply_get s), h]
  rfl

/-- What is shown is the listing, and what follows it. -/
theorem showListing_eq (hlisting : Listing.ofCode p.code = .ok text) (hs : s.machine.sink.NeverFails)
    (h : (s.options.disassemble || s.options.compileOnly) = true) :
    showListing p s = onSink (if s.options.compileOnly then Sink.flush else Sink.write "---\n") (s.wrote text) := by
  unfold showListing
  rw [apply_bind_of_ok (apply_get s), hlisting]
  dsimp only
  rw [if_pos h, apply_bind_of_ok (onSink_write hs text)]

theorem wrote_neverFails (hs : s.machine.sink.NeverFails) (text : String) :
    (s.wrote text).machine.sink.NeverFails :=
  ⟨hs.limit, hs.flush⟩

theorem showListing_of_compileOnly (hlisting : Listing.ofCode p.code = .ok text) (hs : s.machine.sink.NeverFails)
    (h : s.options.compileOnly = true) : showListing p s = .ok () (s.wrote text) := by
  rw [showListing_eq hlisting hs (by rw [h, Bool.or_true]), if_pos h]
  exact onSink_flush (wrote_neverFails hs text)

theorem showListing_of_disassemble (hlisting : Listing.ofCode p.code = .ok text) (hs : s.machine.sink.NeverFails)
    (h : s.options.disassemble = true) (h' : s.options.compileOnly = false) :
    showListing p s = .ok () (s.wrote (text ++ "---\n")) := by
  rw [showListing_eq hlisting hs (by rw [h, Bool.true_or]), if_neg (by simp [h']),
    onSink_write (wrote_neverFails hs text), wrote_wrote]

theorem wrote_behind (hs : s.machine.sink.NeverFails) (text : String) (code : Array UInt8) (spans : SpanTable) :
    (Accord.behind s.machine.sink.written (s.machine.sink.written ++ text.toUTF8)).machines
      (s.machine.start code spans) ((s.wrote text).machine.start code spans) := by
  refine ⟨.empty, hs.eq, ?_⟩
  obtain ⟨⟨reader, spans, stack, constants, globals, ⟨written, limit, flushFails⟩⟩, options⟩ := s
  obtain ⟨hlimit, hflush⟩ := hs
  cases hlimit
  cases hflush
  simp [wrote, Machine.start]

/-! ## Programs that compile and texts that do not -/

/-- A program that compiles has a listing. -/
theorem exists_listing (hp : compileText source = .ok p) : ∃ text, Listing.ofCode p.code = .ok text := by
  unfold compileText at hp
  split at hp
  · cases hp
  · split at hp
    · cases hp
    · rename_i hcompile
      cases hp
      exact (compile_carries hcompile).listed

theorem parse_ne_fault (f : Fault) : parse source ≠ .error (.fault f) := by
  unfold parse
  split
  · simp
  · split <;> simp

/-- A text that does not compile is refused for what it says. -/
theorem compileText_ne_fault (f : Fault) : compileText source ≠ .error (.fault f) := by
  unfold compileText
  split
  · rename_i e he
    rintro ⟨⟩
    exact parse_ne_fault f he
  · split <;> simp

theorem eval_of_error {e : Error} (he : compileText source = .error e) (fuel : Nat) (s : Session) :
    eval fuel source s = .ended (.error e s) := by
  rw [eval, he]

theorem eval_of_compileOnly (hp : compileText source = .ok p) (hlisting : Listing.ofCode p.code = .ok text)
    (hs : s.machine.sink.NeverFails) (disassemble : Bool) (fuel : Nat) :
    eval fuel source { s with options := { disassemble, compileOnly := true } } =
      .ended (.ok () (wrote { s with options := { disassemble, compileOnly := true } } text)) := by
  have hshow :=
    showListing_of_compileOnly (s := { s with options := { disassemble, compileOnly := true } }) hlisting hs rfl
  rw [eval, hp]
  dsimp only
  rw [hshow]
  rfl

/-- The listing and the line of dashes stand before what the program writes, and nothing else is different. -/
theorem eval_alike (hp : compileText source = .ok p) (hlisting : Listing.ofCode p.code = .ok text)
    (hs : s.machine.sink.NeverFails) (fuel : Nat) :
    Alike (Accord.behind s.machine.sink.written (s.machine.sink.written ++ (text ++ "---\n").toUTF8))
      (eval fuel source { s with options := {} }) (eval fuel source { s with options := { disassemble := true } }) := by
  have hshow := showListing_of_disassemble (s := { s with options := { disassemble := true } }) hlisting hs rfl rfl
  rw [eval_eq_reached hp (showListing_of_plain rfl p) rfl, eval_eq_reached hp hshow rfl]
  exact reached_alike ((Accord.behind_sameCode _ _).execute (wrote_behind hs _ p.code p.spans) fuel) _ _

/-- What the options of a session change when it evaluates a text. -/
structure OptionsOnlyShow (source : String) (s : Session) : Prop where
  /-- To show the listing puts it, and a line of dashes, before what the program writes. -/
  disassemble : ∀ p, compileText source = .ok p → ∃ listing, Listing.ofCode p.code = .ok listing ∧ ∀ fuel,
    Alike (Accord.behind s.machine.sink.written (s.machine.sink.written ++ (listing ++ "---\n").toUTF8))
      (eval fuel source { s with options := {} }) (eval fuel source { s with options := { disassemble := true } })
  /-- To compile only writes the listing and leaves everything else. -/
  compileOnly : ∀ p, compileText source = .ok p → ∃ listing, Listing.ofCode p.code = .ok listing ∧
    ∀ disassemble fuel, eval fuel source { s with options := { disassemble, compileOnly := true } } =
      .ended (.ok () (wrote { s with options := { disassemble, compileOnly := true } } listing))
  compileOnly_ok : ∀ disassemble fuel,
    (∃ s', eval fuel source { s with options := { disassemble, compileOnly := true } } = .ended (.ok () s')) ↔
      ∃ p, compileText source = .ok p
  /-- What does not compile is refused and leaves everything. -/
  refused : ∀ e, compileText source = .error e → (∀ f, e ≠ .fault f) ∧
    ∀ options fuel, eval fuel source { s with options } = .ended (.error e { s with options })

/-- **The options of a session do not change what a program does.** -/
theorem optionsOnlyShow (source : String) (s : Session) (hs : s.machine.sink.NeverFails) :
    s.OptionsOnlyShow source where
  disassemble p hp := by
    obtain ⟨listing, hlisting⟩ := exists_listing hp
    exact ⟨listing, hlisting, eval_alike hp hlisting hs⟩
  compileOnly p hp := by
    obtain ⟨listing, hlisting⟩ := exists_listing hp
    exact ⟨listing, hlisting, eval_of_compileOnly hp hlisting hs⟩
  compileOnly_ok disassemble fuel := by
    constructor
    · rintro ⟨s', h⟩
      cases hc : compileText source with
      | ok p => exact ⟨p, rfl⟩
      | error e =>
          rw [eval_of_error hc] at h
          cases h
    · rintro ⟨p, hp⟩
      obtain ⟨listing, hlisting⟩ := exists_listing hp
      exact ⟨_, eval_of_compileOnly hp hlisting hs disassemble fuel⟩
  refused e he :=
    ⟨fun f hf => compileText_ne_fault f (hf ▸ he), fun options fuel => eval_of_error he fuel _⟩

/-- What a session has written, if the evaluation has ended well. -/
def output? : Progress Error Session → Option ByteArray
  | .ended (.ok _ s) => some s.machine.sink.written
  | _ => none

theorem exists_of_output {r : Progress Error Session} {out : ByteArray} (h : output? r = some out) :
    ∃ s, r = .ended (.ok () s) ∧ s.machine.sink.written = out := by
  cases r with
  | running s => cases h
  | ended r =>
      cases r with
      | ok _ s => exact ⟨s, rfl, Option.some.inj h⟩
      | error e s => cases h

theorem compileText_print :
    ∃ p, compileText "print nil;" = .ok p ∧ Listing.ofCode p.code = .ok "push_nil\nprint\n" := by
  have hcode : (compileText "print nil;").toOption.map (·.code) = some #[14, 18] := by decide +kernel
  cases hcompile : compileText "print nil;" with
  | ok p =>
      rw [hcompile] at hcode
      have hbytes : p.code = #[14, 18] := Option.some.inj hcode
      refine ⟨p, rfl, ?_⟩
      rw [hbytes]
      decide +kernel
  | error e =>
      rw [hcompile] at hcode
      cases hcode

def begun : Session :=
  { machine := { sink := { written := "1\n".toUTF8 } } }

theorem optionsOnlyShow_print :
    begun.machine.sink.NeverFails ∧
      (∃ t u, eval 3 "print nil;" begun = .ended (.ok () t) ∧ t.machine.sink.written = "1\nnil\n".toUTF8 ∧
        eval 3 "print nil;" { begun with options := { disassemble := true } } = .ended (.ok () u) ∧
        u.machine.sink.written = "1\npush_nil\nprint\n---\nnil\n".toUTF8 ∧ u.machine.stack = t.machine.stack) ∧
      ∃ t, eval 0 "print nil;" { begun with options := { compileOnly := true } } = .ended (.ok () t) ∧
        t.machine.sink.written = "1\npush_nil\nprint\n".toUTF8 := by
  obtain ⟨p, hcompile, hlisting⟩ := compileText_print
  have hshow := optionsOnlyShow "print nil;" begun ⟨rfl, rfl⟩
  refine ⟨⟨rfl, rfl⟩, ?_, ?_⟩
  · obtain ⟨t, ht, hwritten⟩ :=
      exists_of_output (show output? (eval 3 "print nil;" begun) = some "1\nnil\n".toUTF8 by decide +kernel)
    obtain ⟨listing, hlisting', halike⟩ := hshow.disassemble p hcompile
    cases hlisting.symm.trans hlisting'
    have halike := halike 3
    rw [show eval 3 "print nil;" { begun with options := {} } = .ended (.ok () t) from ht] at halike
    generalize heval : eval 3 "print nil;" { begun with options := { disassemble := true } } = r at halike
    cases halike with
    | @ok _ u h =>
        obtain ⟨out, hsink, hmachine⟩ := h
        rw [hsink] at hwritten
        have hout : out = "nil\n".toUTF8 :=
          (ByteArray.append_right_inj "1\n".toUTF8).mp (hwritten.trans (by decide +kernel))
        refine ⟨t, u, ht, by rw [hsink]; exact hwritten, rfl, ?_, by rw [hmachine]⟩
        rw [hmachine, hout]
        show "1\n".toUTF8 ++ ("push_nil\nprint\n" ++ "---\n").toUTF8 ++ "nil\n".toUTF8 = _
        decide +kernel
  · obtain ⟨listing, hlisting', heval⟩ := hshow.compileOnly p hcompile
    cases hlisting.symm.trans hlisting'
    exact ⟨_, heval false 0, by decide +kernel⟩

end Session

end Lox
