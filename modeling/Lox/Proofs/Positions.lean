import Lox.Proofs.Lexemes
import Mathlib.Order.Nat
import Mathlib.Data.Nat.Find

/-!
# Positions

Every item says where it stands in its text.

* `Item.StandsIn` : the bytes, the line and the column of an item are those of its lexeme, and only a gap lies between
  it and the item before;
* `Cursor.In` : the place of a cursor is the one behind what has been read, kept by every reading;
* `Item.ofText_located` : all items of a text stand in it, and after the first end there are no others.
-/

namespace Lox

/-! ## Lexemes of items -/

/-- A token of this kind is spelt so: as messages show it, or, if it is a number, with digits before and perhaps behind
a decimal point. -/
def TokenKind.Spelt : TokenKind → List Char → Prop
  | .eof, lexeme => lexeme = []
  | .number x, lexeme => ∃ whole fraction, x = Number.read whole fraction ∧ lexeme = Number.spelling whole fraction ∧
      whole ≠ [] ∧ (∀ c ∈ whole, c.isDigit = true) ∧ ∀ c ∈ fraction, c.isDigit = true
  | kind, lexeme => String.ofList lexeme = kind.text

def Item.Spelt : Item → List Char → Prop
  | .token t, lexeme => t.kind.Spelt lexeme
  | .error _, _ => True

theorem Reserved.text_ne_nil (r : Reserved) : r.text.toList ≠ [] := by
  cases r <;> decide

namespace Item.Reads

variable {span : Span} {behind lexeme : List Char} {item : Item}

theorem span_eq (h : item.Reads span behind lexeme) : item.span = span := by
  cases h <;> rfl

/-- Only the end of the text takes no characters. -/
theorem isEof_iff (h : item.Reads span behind lexeme) : item.isEof = true ↔ lexeme = [] := by
  cases h with
  | eof hend => simp [Item.isEof, TokenKind.isEof]
  | symbol r hr => simpa [Item.isEof, TokenKind.isEof] using r.text_ne_nil
  | string content hcontent => simp [Item.isEof, TokenKind.isEof]
  | number whole fraction hsome hwhole hfraction => simp [Item.isEof, TokenKind.isEof, Number.spelling, hsome]
  | word c cs hc hcs =>
      unfold Cursor.wordKind
      cases Reserved.ofWord? (String.ofList (c :: cs)) <;> simp [Item.isEof, TokenKind.isEof]
  | unexpectedChar c hsymbol hquote hdigit hword => simp [Item.isEof]
  | unterminatedString content hcontent hend => simp [Item.isEof]

theorem spelt (h : item.Reads span behind lexeme) : item.Spelt lexeme := by
  cases h with
  | eof hend => rfl
  | symbol r hr => exact String.ofList_toList
  | string content hcontent =>
      show String.ofList ('"' :: (content ++ ['"'])) = s!"\"{String.ofList content}\""
      apply String.toList_inj.mp
      simp [toString]
  | number whole fraction hsome hwhole hfraction => exact ⟨whole, fraction, rfl, rfl, hsome, hwhole, hfraction⟩
  | word c cs hc hcs =>
      have htext := TokenKind.text_wordKind (String.ofList (c :: cs))
      show (Cursor.wordKind (String.ofList (c :: cs))).Spelt (c :: cs)
      unfold Cursor.wordKind at htext ⊢
      cases hword : Reserved.ofWord? (String.ofList (c :: cs)) with
      | some r =>
          rw [hword] at htext
          exact htext.symm
      | none => rfl
  | unexpectedChar c hsymbol hquote hdigit hword => trivial
  | unterminatedString content hcontent hend => trivial

/-- Behind the end of the text there is nothing. -/
theorem eq_eof (h : item.Reads span behind []) : item = .token { kind := .eof, span } ∧ behind = [] := by
  have heof := h.isEof_iff.mpr rfl
  generalize hlexeme : [] = lexeme at h
  cases h with
  | eof hend => exact ⟨rfl, hend⟩
  | symbol r hr => cases heof
  | string content hcontent => cases heof
  | number whole fraction hsome hwhole hfraction => cases heof
  | word c cs hc hcs => cases hlexeme
  | unexpectedChar c hsymbol hquote hdigit hword => cases heof
  | unterminatedString content hcontent hend => cases heof

end Item.Reads

/-! ## Cursors in a text -/

/-- Where the item ended that was read before the `n`-th, or the beginning of the text. -/
def Item.stopBefore (source : String) : Nat → Nat
  | 0 => 0
  | n + 1 => (Item.ofText source n).span.stop

/-- The item stands behind `before` and `gap` in the text, and `lexeme` is what it was read from. -/
structure Item.StandsIn (item : Item) (source : String) (last : Nat) (before gap lexeme behind : List Char) :
    Prop where
  source_eq : source.toList = before ++ gap ++ lexeme ++ behind
  /-- What lies between the last item and this one is a gap. -/
  last_eq : last = (String.ofList before).utf8ByteSize
  isGap : Gap (lexeme ++ behind) gap
  start_eq : item.span.start = (String.ofList (before ++ gap)).utf8ByteSize
  stop_eq : item.span.stop = (String.ofList (before ++ gap ++ lexeme)).utf8ByteSize
  line_eq : item.span.line = 1 + (before ++ gap).count '\n'
  column_eq : item.span.column = 1 + ((before ++ gap).reverse.takeWhile (· != '\n')).length
  isEof_iff : item.isEof = true ↔ lexeme = []
  spelt : item.Spelt lexeme

structure Cursor.In (k : Cursor) (source : String) (before : List Char) : Prop where
  source_eq : source.toList = before ++ k.rest
  place_eq : k.place = Place.after {} before

namespace Cursor

variable {k : Cursor} {source : String} {before gap lexeme behind : List Char} {item : Item}

theorem ofText_in (source : String) : (ofText source).In source [] :=
  ⟨rfl, rfl⟩

/-- What is found at a cursor stands in the text. -/
theorem In.standsIn (hk : k.In source before) (h : k.Finds item gap lexeme behind) :
    item.StandsIn source (String.ofList before).utf8ByteSize before gap lexeme behind := by
  have hstart : k.place.after gap = Place.after {} (before ++ gap) := by
    rw [hk.place_eq, Place.after_append]
  have hstop : k.place.after (gap ++ lexeme) = Place.after {} (before ++ gap ++ lexeme) := by
    rw [hk.place_eq, ← Place.after_append, List.append_assoc]
  have hspan := h.reads.span_eq
  rw [hstart, hstop, Place.after_start, Place.after_start] at hspan
  exact
    { source_eq := by rw [hk.source_eq, h.rest_eq]; simp only [List.append_assoc]
      last_eq := rfl
      isGap := h.isGap
      start_eq := by rw [hspan]; rfl
      stop_eq := by rw [hspan]; rfl
      line_eq := by rw [hspan]; rfl
      column_eq := by rw [hspan]; rfl
      isEof_iff := h.reads.isEof_iff
      spelt := h.reads.spelt }

/-- Reading moves the cursor behind what was read. -/
theorem In.read (hk : k.In source before) (h : k.Finds item gap lexeme behind)
    (hread : k.read.2 = { place := k.place.after (gap ++ lexeme), rest := behind }) :
    k.read.2.In source (before ++ gap ++ lexeme) := by
  rw [hread]
  refine ⟨?_, ?_⟩
  · rw [hk.source_eq, h.rest_eq]
    simp only [List.append_assoc]
  · rw [hk.place_eq, ← Place.after_append, List.append_assoc]

/-- After any number of items the cursor stands in the text, where the last of them ended. -/
theorem afterItems_in (source : String) (n : Nat) :
    ∃ before, ((ofText source).afterItems n).In source before ∧
      Item.stopBefore source n = (String.ofList before).utf8ByteSize := by
  induction n with
  | zero => exact ⟨[], ofText_in source, rfl⟩
  | succ n ih =>
      obtain ⟨before, hk, -⟩ := ih
      obtain ⟨gap, lexeme, behind, hfound, hread⟩ := ((ofText source).afterItems n).read_found
      rw [afterItems_succ]
      exact ⟨before ++ gap ++ lexeme, hk.read hfound hread, (hk.standsIn hfound).stop_eq⟩

/-! ## The end -/

/-- Until the end is read, each item takes at least one character. -/
theorem length_afterItems (source : String) (n : Nat) (h : ∀ m < n, (Item.ofText source m).isEof = false) :
    ((ofText source).afterItems n).rest.length + n ≤ source.length := by
  induction n with
  | zero => exact Nat.le_of_eq String.length_toList
  | succ n ih =>
      have ih := ih fun m hm => h m (Nat.lt_succ_of_lt hm)
      obtain ⟨gap, lexeme, behind, hfound, hread⟩ := ((ofText source).afterItems n).read_found
      have hsome : lexeme ≠ [] := by
        intro hnil
        have heof : (Item.ofText source n).isEof = true := hfound.reads.isEof_iff.mpr hnil
        rw [h n (Nat.lt_succ_self n)] at heof
        cases heof
      have hpos := List.length_pos_iff.mpr hsome
      rw [hfound.rest_eq, List.length_append, List.length_append] at ih
      rw [afterItems_succ, hread]
      dsimp only
      omega

/-- At the end of the text the same end is read again. -/
theorem afterItems_of_end (p : Place) (n : Nat) :
    Cursor.afterItems n { place := p, rest := [] } = { place := p, rest := [] } := by
  induction n with
  | zero => rfl
  | succ n ih => exact ih

theorem afterItems_add (k : Cursor) (m n : Nat) : k.afterItems (m + n) = (k.afterItems m).afterItems n := by
  induction n with
  | zero => rfl
  | succ n ih => rw [← Nat.add_assoc, afterItems_succ, ih, afterItems_succ]

end Cursor

/-- Once the end has been read, nothing else is. -/
theorem Item.ofText_of_isEof {source : String} {n : Nat} (h : (Item.ofText source n).isEof = true) :
    ∃ t : Token, t.kind = .eof ∧ ∀ m, n ≤ m → Item.ofText source m = .token t := by
  obtain ⟨gap, lexeme, behind, hfound, hread⟩ := ((Cursor.ofText source).afterItems n).read_found
  obtain rfl := hfound.reads.isEof_iff.mp h
  obtain ⟨heof, rfl⟩ := hfound.reads.eq_eof
  rw [List.append_nil] at heof hread
  generalize ((Cursor.ofText source).afterItems n).place.after gap = p at heof hread
  have hsame : ∀ m, n ≤ m → Item.ofText source m = .token { kind := .eof, span := p.spanTo p } := by
    intro m hm
    obtain ⟨d, rfl⟩ := Nat.exists_eq_add_of_le hm
    cases d with
    | zero => exact heof
    | succ d =>
        unfold Item.ofText
        rw [Nat.add_comm d 1, ← Nat.add_assoc, Cursor.afterItems_add, Cursor.afterItems_succ, hread,
          Cursor.afterItems_of_end]
        rfl
  exact ⟨_, rfl, hsame⟩

/-- The end is read at some time. -/
theorem Item.exists_isEof (source : String) : ∃ n, (Item.ofText source n).isEof = true := by
  by_contra hnone
  have hlength := Cursor.length_afterItems source (source.length + 1) fun m _ => by
    simpa using fun h => hnone ⟨m, h⟩
  omega

/-- **Every item says where it stands.** Its bytes are a whole number of characters of the text, and they are what the
item is spelt as; between it and the item before there are only separators and comments; its line and column count the
newlines before it and the characters since the last. The end comes after no more items than the text has characters,
and is then read for ever. -/
theorem Item.ofText_located (source : String) :
    (∀ n, ∃ before gap lexeme behind,
      (Item.ofText source n).StandsIn source (Item.stopBefore source n) before gap lexeme behind) ∧
    ∃ (n : Nat) (t : Token), n ≤ source.length ∧ (∀ m < n, (Item.ofText source m).isEof = false) ∧ t.kind = .eof ∧
      ∀ m, n ≤ m → Item.ofText source m = .token t := by
  constructor
  · intro n
    obtain ⟨before, hk, hlast⟩ := Cursor.afterItems_in source n
    obtain ⟨gap, lexeme, behind, hfound, -⟩ := ((Cursor.ofText source).afterItems n).read_found
    exact ⟨before, gap, lexeme, behind, hlast ▸ hk.standsIn hfound⟩
  · have hsome := Item.exists_isEof source
    have hfirst : ∀ m < Nat.find hsome, (Item.ofText source m).isEof = false := fun m hm => by
      simpa using Nat.find_min hsome hm
    obtain ⟨t, ht, hsame⟩ := Item.ofText_of_isEof (Nat.find_spec hsome)
    have hlength := Cursor.length_afterItems source (Nat.find hsome) hfirst
    exact ⟨Nat.find hsome, t, by omega, hfirst, ht, hsame⟩

end Lox
