import Lox.Token.Scan
import Mathlib.Data.List.Induction
import Mathlib.Data.List.TakeDrop
import Mathlib.Data.List.TakeWhile
import Mathlib.Tactic.SplitIfs

/-!
# Lexemes

What stands in a text where an item is read. An item is a token or an error, since reading goes on behind errors.

* `Place.after_start` : the offset, line and column behind the first characters of a text;
* `Gap behind cs` : the characters `cs` are separators and comments, in front of `behind`;
* `Item.Reads` : which characters are read as which item;
* `Cursor.read_found` : what is read at a place is a gap and then an item;
* `Item.ofText source n` : the item that is read when `n` have been read before.
-/

namespace Lox

/-! ## Places -/

namespace Place

@[simp] theorem after_nil (p : Place) : p.after [] = p := rfl

@[simp] theorem after_cons (p : Place) (c : Char) (cs : List Char) : p.after (c :: cs) = (p.next c).after cs := rfl

theorem after_append (p : Place) (as bs : List Char) : p.after (as ++ bs) = (p.after as).after bs :=
  List.foldl_append

/-- The place behind the first characters of a text: the line is one more than the newlines among them, the column
one more than the characters since the last of these. -/
theorem after_start (before : List Char) :
    Place.after {} before =
      { offset := (String.ofList before).utf8ByteSize
        line := 1 + before.count '\n'
        column := 1 + (before.reverse.takeWhile (· != '\n')).length } := by
  induction before using List.reverseRecOn with
  | nil => rfl
  | append_singleton cs c ih =>
      rw [after_append, ih, after_cons, after_nil, next]
      by_cases hc : c = '\n'
      · subst hc
        have hsize : '\n'.utf8Size = "\n".utf8ByteSize := by decide
        simp [Nat.add_assoc, hsize]
      · have hcount : List.count '\n' [c] = 0 := by simp [hc]
        simp [hc, hcount]
        omega

end Place

/-! ## Gaps -/

/-- Separators and comments in front of `behind`. A comment ends with its line or with the text. -/
inductive Gap (behind : List Char) : List Char → Prop where
  | nil : Gap behind []
  | separator {c : Char} {cs : List Char} (hc : Cursor.isSeparator c = true) (h : Gap behind cs) :
      Gap behind (c :: cs)
  | comment {text cs : List Char} (htext : '\n' ∉ text) (hend : ∀ c ∈ (cs ++ behind).head?, c = '\n')
      (h : Gap behind cs) : Gap behind ('/' :: '/' :: (text ++ cs))

structure Gap.Ended (behind : List Char) : Prop where
  separator : ∀ c ∈ behind.head?, Cursor.isSeparator c = false
  comment : ¬['/', '/'] <+: behind

namespace Cursor

/-- What is skipped is the rest of a comment, if reading begins in one, and a gap. -/
theorem skipFrom_found (comment : Bool) (p : Place) (cs : List Char) :
    ∃ text gap behind, cs = text ++ gap ++ behind ∧
      skipFrom comment p cs = { place := p.after (text ++ gap), rest := behind } ∧ Gap behind gap ∧
      Gap.Ended behind ∧ '\n' ∉ text ∧ (comment = false → text = []) ∧
      (comment = true → ∀ c ∈ (gap ++ behind).head?, c = '\n') := by
  induction cs generalizing comment p with
  | nil => exact ⟨[], [], [], rfl, rfl, .nil, ⟨by simp, by simp⟩, by simp, fun _ => rfl, by simp⟩
  | cons c cs ih =>
      rw [skipFrom]
      split_ifs with hcomment hsep hslash
      · subst hcomment
        obtain ⟨text, gap, behind, hcs, hskip, hgap, hended, htext, hnone, hsome⟩ := ih (c != '\n') (p.next c)
        by_cases hc : c = '\n'
        · subst hc
          obtain rfl := hnone rfl
          exact ⟨[], '\n' :: gap, behind, by simp [hcs], hskip, .separator rfl hgap, hended, by simp, fun _ => rfl,
            by simp⟩
        · exact ⟨c :: text, gap, behind, by simp [hcs], hskip, hgap, hended, by simp [htext, Ne.symm hc], by simp,
            fun _ => hsome (by simp [hc])⟩
      · obtain ⟨text, gap, behind, hcs, hskip, hgap, hended, -, hnone, -⟩ := ih false (p.next c)
        obtain rfl := hnone rfl
        exact ⟨[], c :: gap, behind, by simp [hcs], hskip, .separator hsep hgap, hended, by simp, fun _ => rfl,
          by simp [hcomment]⟩
      · obtain ⟨text, gap, behind, hcs, hskip, hgap, hended, htext, -, hsome⟩ := ih true (p.next c)
        simp only [Bool.and_eq_true, decide_eq_true_eq, beq_iff_eq] at hslash
        obtain ⟨rfl, hhead⟩ := hslash
        cases text with
        | nil =>
            rw [hcs, List.nil_append] at hhead
            exact absurd (hsome rfl '/' hhead) (by decide)
        | cons d text =>
            obtain rfl : d = '/' := by simpa [hcs] using hhead
            have htext' : '\n' ∉ text := fun h => htext (List.mem_cons_of_mem _ h)
            exact ⟨[], '/' :: '/' :: (text ++ gap), behind, by simp [hcs], hskip, .comment htext' (hsome rfl) hgap,
              hended, by simp, fun _ => rfl, by simp [hcomment]⟩
      · refine ⟨[], [], c :: cs, rfl, rfl, .nil, ⟨by simpa using hsep, fun hpre => hslash ?_⟩, by simp, fun _ => rfl,
          by simp [hcomment]⟩
        obtain ⟨rest, hrest⟩ := hpre
        obtain ⟨rfl, rfl⟩ := List.cons.inj hrest
        rfl

theorem skip_found (k : Cursor) :
    ∃ gap behind, k.rest = gap ++ behind ∧ k.skip = { place := k.place.after gap, rest := behind } ∧
      Gap behind gap ∧ Gap.Ended behind := by
  obtain ⟨text, gap, behind, hcs, hskip, hgap, hended, -, hnone, -⟩ := skipFrom_found false k.place k.rest
  obtain rfl := hnone rfl
  exact ⟨gap, behind, hcs, hskip, hgap, hended⟩

end Cursor

/-! ## Items -/

inductive Item where
  | token (t : Token)
  | error (e : LexicalError)
deriving DecidableEq

/-- How a number is spelt that has these digits before and after its decimal point. -/
def Number.spelling (whole fraction : List Char) : List Char :=
  whole ++ if fraction = [] then [] else '.' :: fraction

namespace Item

def span : Item → Span
  | token t => t.span
  | error e => e.span

def isEof : Item → Bool
  | token t => t.kind.isEof
  | error _ => false

/-- The item that is read from some characters, in front of `behind`. -/
inductive Reads (span : Span) (behind : List Char) : Item → List Char → Prop where
  | eof (hend : behind = []) : Reads span behind (token { kind := .eof, span }) []
  | symbol (r : Reserved) (hr : r ∉ Reserved.keywords) :
      Reads span behind (token { kind := .reserved r, span }) r.text.toList
  | string (content : List Char) (hcontent : '"' ∉ content) :
      Reads span behind (token { kind := .string (String.ofList content), span }) ('"' :: (content ++ ['"']))
  | number (whole fraction : List Char) (hsome : whole ≠ []) (hwhole : ∀ c ∈ whole, c.isDigit = true)
      (hfraction : ∀ c ∈ fraction, c.isDigit = true) :
      Reads span behind (token { kind := .number (Number.read whole fraction), span })
        (Number.spelling whole fraction)
  | word (c : Char) (cs : List Char) (hc : Cursor.startsWord c = true) (hcs : ∀ d ∈ cs, Cursor.continuesWord d = true) :
      Reads span behind (token { kind := Cursor.wordKind (String.ofList (c :: cs)), span }) (c :: cs)
  | unexpectedChar (c : Char) (hsymbol : ∀ next, Cursor.symbol? c next = none) (hquote : c ≠ '"')
      (hdigit : c.isDigit = false) (hword : Cursor.startsWord c = false) :
      Reads span behind (error (.unexpectedChar c span)) [c]
  | unterminatedString (content : List Char) (hcontent : '"' ∉ content) (hend : behind = []) :
      Reads span behind (error (.unterminatedString span)) ('"' :: content)

end Item

namespace Cursor

/-- What a test lets pass is taken as far as it goes. -/
theorem takeWhile_found (k : Cursor) (test : Char → Bool) :
    ∃ taken behind, k.rest = taken ++ behind ∧
      k.takeWhile test = (taken, { place := k.place.after taken, rest := behind }) ∧
      (∀ c ∈ taken, test c = true) ∧ ∀ c ∈ behind.head?, test c = false := by
  refine ⟨k.rest.takeWhile test, k.rest.dropWhile test, List.takeWhile_append_dropWhile.symm, ?_, ?_, ?_⟩
  · unfold takeWhile
    rw [List.span_eq_takeWhile_dropWhile]
  · exact fun c hc => List.mem_takeWhile_imp hc
  · intro c hc
    have hnot := List.head?_dropWhile_not test k.rest
    rw [Option.mem_def.mp hc] at hnot
    exact hnot

theorem advance_append (p : Place) (cs behind : List Char) :
    Cursor.advance { place := p, rest := cs ++ behind } cs.length = { place := p.after cs, rest := behind } := by
  unfold advance
  rw [List.take_left, List.drop_left]

theorem continuesWord_of_startsWord {c : Char} (h : startsWord c = true) : continuesWord c = true := by
  unfold startsWord at h
  unfold continuesWord
  simp only [Bool.or_eq_true] at h ⊢
  tauto

/-- A symbol is its first character alone, or that and an equals sign. -/
theorem symbol?_eq_some {c : Char} {next : Option Char} {r : Reserved} (h : symbol? c next = some r) :
    r ∉ Reserved.keywords ∧ (r.text.toList = [c] ∨ next = some '=' ∧ r.text.toList = [c, '=']) := by
  unfold symbol? at h
  dsimp only at h
  split at h
  case h_12 | h_13 | h_14 | h_15 =>
    split_ifs at h with hnext
    · cases h
      exact ⟨by decide, Or.inr ⟨by simpa using hnext, by decide⟩⟩
    · cases h
      exact ⟨by decide, Or.inl (by decide)⟩
  case h_16 => cases h
  all_goals
    cases h
    exact ⟨by decide, Or.inl (by decide)⟩

/-- Whether a character begins a symbol does not depend on what follows. -/
theorem symbol?_eq_none {c : Char} {next : Option Char} (h : symbol? c next = none) (next' : Option Char) :
    symbol? c next' = none := by
  unfold symbol? at h ⊢
  dsimp only at h ⊢
  split at h
  case h_16 => rfl
  all_goals cases h

end Cursor

theorem Reserved.text_of_ofWord? {word : String} {r : Reserved} (h : Reserved.ofWord? word = some r) :
    r.text = word := by
  simpa using List.find?_some h

theorem TokenKind.text_wordKind (word : String) : (Cursor.wordKind word).text = word := by
  unfold Cursor.wordKind
  cases h : Reserved.ofWord? word with
  | some r => exact Reserved.text_of_ofWord? h
  | none => rfl

namespace Item

def ofResult : EStateM.Result LexicalError Cursor Token → Item × Cursor
  | .ok t k => (token t, k)
  | .error e k => (error e, k)

end Item

namespace Cursor

/-- The digits of a number are read as far as they go. -/
theorem digits_found (start : Cursor) {c : Char} {cs : List Char} (hrest : start.rest = c :: cs)
    (hc : c.isDigit = true) :
    ∃ whole fraction behind, start.rest = Number.spelling whole fraction ++ behind ∧
      start.digits = (whole, fraction,
        { place := start.place.after (Number.spelling whole fraction), rest := behind }) ∧
      whole ≠ [] ∧ (∀ c ∈ whole, c.isDigit = true) ∧ ∀ c ∈ fraction, c.isDigit = true := by
  obtain ⟨whole, behind, hsplit, htake, hwhole, hstop⟩ := start.takeWhile_found Char.isDigit
  have hsome : whole ≠ [] := by
    rintro rfl
    rw [List.nil_append, hrest] at hsplit
    rw [← hsplit] at hstop
    rw [hstop c rfl] at hc
    cases hc
  have hinteger : Number.spelling whole [] = whole := List.append_nil _
  unfold digits
  rw [htake]
  dsimp only
  split
  · rename_i d ds
    split_ifs with hd
    · have hpoint := advance_append (start.place.after whole) ['.'] (d :: ds)
      obtain ⟨fraction, behind, hsplit', htake', hfraction, hstop'⟩ :=
        Cursor.takeWhile_found { place := (start.place.after whole).after ['.'], rest := d :: ds } Char.isDigit
      dsimp only at hsplit'
      have hsome' : fraction ≠ [] := by
        rintro rfl
        rw [List.nil_append] at hsplit'
        rw [← hsplit'] at hstop'
        rw [hstop' d rfl] at hd
        cases hd
      have hspelling : Number.spelling whole fraction = whole ++ '.' :: fraction := by
        rw [Number.spelling, if_neg hsome']
      refine ⟨whole, fraction, behind, ?_, ?_, hsome, hwhole, hfraction⟩
      · rw [hspelling, hsplit, hsplit', List.append_assoc, List.cons_append]
      · rw [List.length_singleton, List.singleton_append] at hpoint
        rw [hpoint, htake', hspelling, Place.after_append]
        rfl
    · exact ⟨whole, [], _, by rw [hinteger, hsplit], by rw [hinteger], hsome, hwhole, by simp⟩
  · exact ⟨whole, [], _, by rw [hinteger, hsplit], by rw [hinteger], hsome, hwhole, by simp⟩

/-- **What is read at the beginning of a lexeme.** -/
theorem lexeme_found (p : Place) (rest : List Char) :
    ∃ item lexeme behind, rest = lexeme ++ behind ∧
      Item.ofResult (Cursor.lexeme { place := p, rest }) = (item, { place := p.after lexeme, rest := behind }) ∧
      item.Reads (p.spanTo (p.after lexeme)) behind lexeme := by
  cases rest with
  | nil => exact ⟨_, [], [], rfl, rfl, .eof rfl⟩
  | cons c cs =>
      unfold lexeme
      dsimp only
      cases hsymbol : symbol? c cs.head? with
      | some r =>
          obtain ⟨hr, htext⟩ := symbol?_eq_some hsymbol
          have hrest : ∃ behind, c :: cs = r.text.toList ++ behind := by
            obtain htext | ⟨hnext, htext⟩ := htext
            · exact ⟨cs, by rw [htext]; rfl⟩
            · obtain ⟨ds, rfl⟩ := List.head?_eq_some_iff.mp hnext
              exact ⟨ds, by rw [htext]; rfl⟩
          obtain ⟨behind, hrest⟩ := hrest
          refine ⟨_, r.text.toList, behind, hrest, ?_, .symbol r hr⟩
          dsimp only
          rw [hrest, ← String.length_toList, advance_append]
          rfl
      | none =>
          dsimp only
          split_ifs with hquote hdigit hword
          · subst hquote
            have hopen := advance_append p ['"'] cs
            rw [List.length_singleton, List.singleton_append] at hopen
            rw [hopen]
            obtain ⟨content, behind, hsplit, htake, hcontent, hstop⟩ :=
              Cursor.takeWhile_found { place := p.after ['"'], rest := cs } (· != '"')
            dsimp only at hsplit
            rw [htake]
            have hnone : '"' ∉ content := fun h => by simpa using hcontent _ h
            cases behind with
            | nil =>
                refine ⟨_, '"' :: content, [], by rw [hsplit, List.append_nil, List.append_nil], ?_,
                  .unterminatedString content hnone rfl⟩
                rfl
            | cons d ds =>
                obtain rfl : d = '"' := by simpa using hstop d rfl
                have hclose := advance_append ((p.after ['"']).after content) ['"'] ds
                rw [List.length_singleton, List.singleton_append] at hclose
                refine ⟨_, '"' :: (content ++ ['"']), ds, by simp [hsplit], ?_, .string content hnone⟩
                dsimp only
                rw [hclose, ← Place.after_append, ← Place.after_append]
                rfl
          · obtain ⟨whole, fraction, behind, hsplit, hdigits, hsome, hwhole, hfraction⟩ :=
              digits_found { place := p, rest := c :: cs } rfl hdigit
            refine ⟨_, _, behind, hsplit, ?_, .number whole fraction hsome hwhole hfraction⟩
            rw [hdigits]
            rfl
          · obtain ⟨word, behind, hsplit, htake, hcontinues, hstop⟩ :=
              Cursor.takeWhile_found { place := p, rest := c :: cs } continuesWord
            dsimp only at hsplit
            have hc : continuesWord c = true := continuesWord_of_startsWord hword
            cases word with
            | nil =>
                obtain rfl : c :: cs = behind := hsplit
                rw [hstop c rfl] at hc
                cases hc
            | cons d ds =>
                obtain ⟨rfl, hcs⟩ := List.cons.inj hsplit
                refine ⟨_, c :: ds, behind, hsplit, ?_, .word c ds hword fun e he => hcontinues e (by simp [he])⟩
                rw [htake]
                rfl
          · have hskip := advance_append p [c] cs
            rw [List.length_singleton, List.singleton_append] at hskip
            refine ⟨_, [c], cs, rfl, ?_, .unexpectedChar c (symbol?_eq_none hsymbol) hquote (by simpa using hdigit)
              (by simpa using hword)⟩
            rw [hskip]
            rfl

/-- Reads the next item and moves behind it, past errors. -/
def read (k : Cursor) : Item × Cursor :=
  Item.ofResult k.token

/-- What is found at a cursor: the gap that is skipped, the lexeme of the item, and what is left behind it. -/
structure Finds (k : Cursor) (item : Item) (gap lexeme behind : List Char) : Prop where
  rest_eq : k.rest = gap ++ lexeme ++ behind
  isGap : Gap (lexeme ++ behind) gap
  ended : Gap.Ended (lexeme ++ behind)
  reads : item.Reads ((k.place.after gap).spanTo (k.place.after (gap ++ lexeme))) behind lexeme

/-- **Reading skips a gap and takes the lexeme behind it.** -/
theorem read_found (k : Cursor) :
    ∃ gap lexeme behind, k.Finds k.read.1 gap lexeme behind ∧
      k.read.2 = { place := k.place.after (gap ++ lexeme), rest := behind } := by
  obtain ⟨gap, rest, hrest, hskip, hgap, hended⟩ := k.skip_found
  obtain ⟨item, lexeme, behind, hsplit, hread, hreads⟩ := lexeme_found (k.place.after gap) rest
  have hresult : k.read = (item, { place := k.place.after (gap ++ lexeme), rest := behind }) := by
    rw [Place.after_append, ← hread, ← hskip]
    rfl
  subst hsplit
  refine ⟨gap, lexeme, behind, ⟨by rw [hrest, List.append_assoc], hgap, hended, ?_⟩, by rw [hresult]⟩
  rw [hresult, Place.after_append]
  exact hreads

def afterItems : Nat → Cursor → Cursor
  | 0, k => k
  | n + 1, k => afterItems n k.read.2

theorem afterItems_succ (n : Nat) (k : Cursor) : k.afterItems (n + 1) = (k.afterItems n).read.2 := by
  induction n generalizing k with
  | zero => rfl
  | succ n ih => exact ih k.read.2

end Cursor

/-- The item of a text that is read when `n` have been read before. -/
def Item.ofText (source : String) (n : Nat) : Item :=
  ((Cursor.ofText source).afterItems n).read.1

end Lox
