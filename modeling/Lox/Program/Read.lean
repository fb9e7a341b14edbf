import Lox.Program.Progress

/-!
# Reading programs

A program is read declaration by declaration. An error is noted, and reading goes on where the next
statement seems to begin, so that one reading finds the errors of every statement.

* `Reading.from` : reads to the end of a stream, unless a count runs out;
* `Reading.isSome_from` : no count that is high enough for the tokens does;
* `Program.ofTokens` : the program that a list of tokens spells.
-/

namespace Lox

structure Reading where
  statements : Array Stmt := #[]
  errors : Array SyntaxError := #[]

/-- Reads declarations to the end of the stream, at most `rounds` of them, each nested at most `fuel`
deep. -/
def Reading.from (fuel : Nat) : Nat → Reading → TokenStream → Option Reading
  | 0, r, s => if s.atEnd then some r else none
  | rounds + 1, r, s =>
    if s.atEnd then some r
    else
      match Parser.declaration fuel s with
      | .ok d s => Reading.from fuel rounds { r with statements := r.statements.push d } s
      | .error (.error e) s => Reading.from fuel rounds { r with errors := r.errors.push e } s.resume
      | .error .exhausted _ => none

namespace Reading

variable {fuel rounds : Nat} {r : Reading} {s s' : TokenStream}

theorem from_of_nil (h : s.rest = []) : Reading.from fuel rounds r s = some r := by
  have hend : s.atEnd = true := List.isEmpty_iff.mpr h
  cases rounds with
  | zero => rw [Reading.from, if_pos hend]
  | succ rounds => rw [Reading.from, if_pos hend]

theorem from_of_ok {d : Stmt} (h : s.rest ≠ []) (hd : Parser.declaration fuel s = .ok d s') :
    Reading.from fuel (rounds + 1) r s = Reading.from fuel rounds { r with statements := r.statements.push d } s' := by
  have hend : ¬s.atEnd = true := mt List.isEmpty_iff.mp h
  rw [Reading.from, if_neg hend, hd]

theorem from_of_error {e : SyntaxError} (h : s.rest ≠ []) (hd : Parser.declaration fuel s = .error (.error e) s') :
    Reading.from fuel (rounds + 1) r s = Reading.from fuel rounds { r with errors := r.errors.push e } s'.resume := by
  have hend : ¬s.atEnd = true := mt List.isEmpty_iff.mp h
  rw [Reading.from, if_neg hend, hd]

theorem isSome_from (hs : s.stop.kind = .eof) (hfuel : 4 * (s.rest.length + 1) ≤ fuel)
    (hrounds : s.rest.length ≤ rounds) : (Reading.from fuel rounds r s).isSome = true := by
  induction rounds generalizing r s with
  | zero =>
      rw [from_of_nil (List.length_eq_zero_iff.mp (Nat.le_zero.mp hrounds))]
      rfl
  | succ rounds ih =>
      by_cases hnil : s.rest = []
      · rw [from_of_nil hnil]
        rfl
      have hproceeds := Parser.declaration_advances (by omega) s hs (Nat.le_refl _)
      generalize hd : Parser.declaration fuel s = x at hproceeds
      cases hproceeds with
      | ok d h =>
          have hlength := h.length
          rw [from_of_ok hnil hd]
          exact ih (by rw [h.stop, hs]) (by omega) (by omega)
      | error h he =>
          have hmoved := h.resume hnil
          have hlength := hmoved.length
          rw [from_of_error hnil hd]
          exact ih (by rw [hmoved.stop, hs]) (by omega) (by omega)

end Reading

namespace TokenStream

theorem stop_kind_ofTokens (tokens : List Token) : (ofTokens tokens).stop.kind = .eof := by
  unfold ofTokens
  cases hfind : tokens.find? (·.kind.isEof) with
  | none => rfl
  | some t =>
      have heof := List.find?_some hfind
      cases hkind : t.kind with
      | eof => exact hkind
      | _ => simp [hkind, TokenKind.isEof] at heof

/-- Reads a whole stream. A phrase nests no deeper than it has tokens, and each round takes one. -/
def read? (s : TokenStream) : Option Reading :=
  Reading.from (4 * (s.rest.length + 1)) s.rest.length {} s

theorem isSome_read? (tokens : List Token) : (ofTokens tokens).read?.isSome = true :=
  Reading.isSome_from (stop_kind_ofTokens tokens) (Nat.le_refl _) (Nat.le_refl _)

theorem exists_read? (tokens : List Token) : ∃ r, (ofTokens tokens).read? = some r :=
  Option.isSome_iff_exists.mp (isSome_read? tokens)

end TokenStream

/-- The program that a list of tokens spells, or all its errors in order. -/
def Program.ofTokens (tokens : List Token) : Except (List SyntaxError) Program :=
  let r := (TokenStream.ofTokens tokens).read?.get (TokenStream.isSome_read? tokens)
  if r.errors.isEmpty then .ok r.statements.toList else .error r.errors.toList

theorem Program.ofTokens_of_read {tokens : List Token} {r : Reading} (h : (TokenStream.ofTokens tokens).read? = some r) :
    Program.ofTokens tokens = if r.errors.isEmpty then .ok r.statements.toList else .error r.errors.toList := by
  have hr : (TokenStream.ofTokens tokens).read?.get (TokenStream.isSome_read? tokens) = r := Option.get_of_eq_some _ h
  unfold Program.ofTokens
  rw [hr]

end Lox
