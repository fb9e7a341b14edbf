import Mathlib.Data.List.Infix
import Mathlib.Data.Nat.Find
import Mathlib.Tactic.Ring
import Lox.Proofs.Positions
import Lox.Shell.Dialogue

/-!
# Braces

Braces are counted in two ways: among the tokens of a text, and along the characters of a line when lines are
collected.

* `Item.balance source` : opening less closing braces among the tokens of a text;
* `Region.weigh` : the same along the characters, for texts of several lines, and whether the text ends in a string;
* `Cursor.weigh_rest` : the two agree, item by item (`Cursor.weigh_read`);
* `Item.braceBalance_line` : so along a line the count is that of its tokens;
* `Item.toInt_ofInt_sum_balance` : the count has 32 bits, and is exact on fewer than 2³¹ characters;
* `Item.balance_lines` : lines that end outside strings can be counted one by one;
* `Pending.pushAll_collects` : lines are collected until the tokens of each of them close their braces.
-/

namespace Lox

/-! ## Braces among tokens -/

namespace Item

def is (r : Reserved) : Item → Bool
  | token t => t.kind.is r
  | error _ => false

def isOpenString : Item → Bool
  | error (.unterminatedString _) => true
  | _ => false

/-- The items of a text in front of its end, of which there are never more than characters, and then the end. -/
def all (source : String) : List Item :=
  (List.range source.length).map (ofText source)

/-- Opening less closing braces among the tokens of a row of items. -/
def balanceOf (items : List Item) : Int :=
  items.countP (is .leftBrace) - items.countP (is .rightBrace)

def balance (source : String) : Int :=
  balanceOf (all source)

@[simp] theorem balanceOf_nil : balanceOf [] = 0 := rfl

theorem balanceOf_cons (item : Item) (items : List Item) :
    balanceOf (item :: items) = balanceOf items + balanceOf [item] := by
  unfold balanceOf
  simp only [List.countP_cons, List.countP_nil]
  push_cast
  ring

end Item

namespace Cursor

def items : Nat → Cursor → List Item
  | 0, _ => []
  | n + 1, k => k.read.1 :: items n k.read.2

theorem map_range_eq_items (n : Nat) (k : Cursor) :
    (List.range n).map (fun i => (k.afterItems i).read.1) = k.items n := by
  induction n generalizing k with
  | zero => rfl
  | succ n ih =>
      rw [List.range_succ_eq_map, List.map_cons, List.map_map, items, ← ih]
      rfl

end Cursor

/-- A word is none of the symbols. -/
theorem TokenKind.is_wordKind {r : Reserved} (hr : r ∉ Reserved.keywords) (word : String) :
    (Cursor.wordKind word).is r = false := by
  unfold Cursor.wordKind
  cases hword : Reserved.ofWord? word with
  | none => rfl
  | some s =>
      have hs : s ∈ Reserved.keywords := List.mem_of_find?_eq_some hword
      exact decide_eq_false fun h => hr (h ▸ hs)

theorem Item.all_eq (source : String) : Item.all source = (Cursor.ofText source).items source.length :=
  Cursor.map_range_eq_items _ _

/-! ## Braces along the characters -/

inductive Region where
  | code
  | string
  | comment
deriving DecidableEq

namespace Region

def brace (c : Char) : Int :=
  if c = '\x7b' then 1 else if c = '\x7d' then -1 else 0

/-- Whether the text ends in a string, and opening less closing braces outside strings and comments. -/
def weigh : Region → List Char → Bool × Int
  | r, [] => (r = .string, 0)
  | .string, c :: cs => weigh (if c = '"' then .code else .string) cs
  | .comment, c :: cs => weigh (if c = '\n' then .code else .comment) cs
  | .code, c :: cs =>
    if c = '"' then weigh .string cs
    else if c = '/' ∧ cs.head? = some '/' then weigh .comment cs
    else ((weigh .code cs).1, (weigh .code cs).2 + brace c)

variable {c : Char} {cs behind : List Char}

/-- A character that means nothing outside strings and comments. -/
def Plain (c : Char) : Prop :=
  c ≠ '"' ∧ c ≠ '/' ∧ c ≠ '\x7b' ∧ c ≠ '\x7d'

instance : DecidablePred Plain := fun _ => inferInstanceAs (Decidable (_ ∧ _))

theorem weigh_quote (cs : List Char) : weigh .code ('"' :: cs) = weigh .string cs := by
  rw [weigh, if_pos rfl]

theorem weigh_plain (hc : Plain c) (cs : List Char) : weigh .code (c :: cs) = weigh .code cs := by
  obtain ⟨hquote, hslash, hopen, hclose⟩ := hc
  simp [weigh, brace, hquote, hslash, hopen, hclose]

theorem weigh_plain_append (h : ∀ c ∈ cs, Plain c) (behind : List Char) :
    weigh .code (cs ++ behind) = weigh .code behind := by
  induction cs with
  | nil => rfl
  | cons c cs ih =>
      rw [List.cons_append, weigh_plain (h c List.mem_cons_self), ih fun d hd => h d (List.mem_cons_of_mem _ hd)]

theorem weigh_comment_append {text : List Char} (htext : '\n' ∉ text) (hend : ∀ c ∈ behind.head?, c = '\n') :
    weigh .comment (text ++ behind) = weigh .code behind := by
  induction text with
  | nil =>
      cases behind with
      | nil => rfl
      | cons c cs =>
          obtain rfl := hend c rfl
          rw [List.nil_append, weigh_plain (by decide)]
          rfl
  | cons c text ih =>
      have hc : c ≠ '\n' := fun h => htext (h ▸ List.mem_cons_self)
      rw [List.cons_append, weigh, if_neg hc, ih fun h => htext (List.mem_cons_of_mem _ h)]

theorem weigh_string_append {content : List Char} (hcontent : '"' ∉ content) (behind : List Char) :
    weigh .string (content ++ behind) = weigh .string behind := by
  induction content with
  | nil => rfl
  | cons c content ih =>
      have hc : c ≠ '"' := fun h => hcontent (h ▸ List.mem_cons_self)
      rw [List.cons_append, weigh, if_neg hc, ih fun h => hcontent (List.mem_cons_of_mem _ h)]

/-- A gap weighs nothing. -/
theorem weigh_gap {gap : List Char} (h : Gap behind gap) : weigh .code (gap ++ behind) = weigh .code behind := by
  induction h with
  | nil => rfl
  | @separator c cs hc h ih =>
      have hplain : Plain c := by
        simp only [Cursor.isSeparator, Bool.or_eq_true, decide_eq_true_eq] at hc
        obtain ((rfl | rfl) | rfl) | rfl := hc <;> decide
      rw [List.cons_append, weigh_plain hplain, ih]
  | @comment text cs htext hend h ih =>
      have htext' : '\n' ∉ '/' :: text := by simp [htext]
      rw [List.cons_append, weigh, if_neg (by decide), if_pos ⟨rfl, rfl⟩, ← List.cons_append,
        List.append_assoc, weigh_comment_append htext' hend, ih]

theorem plain_of_isDigit (h : c.isDigit = true) : Plain c := by
  refine ⟨?_, ?_, ?_, ?_⟩ <;>
  · rintro rfl
    revert h
    decide

theorem plain_of_continuesWord (h : Cursor.continuesWord c = true) : Plain c := by
  refine ⟨?_, ?_, ?_, ?_⟩ <;>
  · rintro rfl
    revert h
    decide

theorem plain_of_unexpected (hsymbol : ∀ next, Cursor.symbol? c next = none) (hquote : c ≠ '"') : Plain c := by
  refine ⟨hquote, ?_, ?_, ?_⟩ <;>
  · rintro rfl
    cases hsymbol none

/-- Of the symbols only the braces count, if no comment begins with the symbol. -/
theorem weigh_symbol (r : Reserved) (span : Span) (hr : r ∉ Reserved.keywords)
    (hslash : ¬['/', '/'] <+: r.text.toList ++ behind) :
    weigh .code (r.text.toList ++ behind) =
      ((weigh .code behind).1, (weigh .code behind).2 + Item.balanceOf [.token { kind := .reserved r, span }]) := by
  have hplain : (∀ c ∈ r.text.toList, Plain c) → Item.balanceOf [.token { kind := .reserved r, span }] = 0 →
      weigh .code (r.text.toList ++ behind) =
        ((weigh .code behind).1, (weigh .code behind).2 + Item.balanceOf [.token { kind := .reserved r, span }]) := by
    intro hcs hzero
    rw [weigh_plain_append hcs, hzero, add_zero]
  cases r with
  | leftBrace => rfl
  | rightBrace => rfl
  | slash =>
      have hnext : behind.head? ≠ some '/' := by
        intro hnext
        obtain ⟨cs, rfl⟩ := List.head?_eq_some_iff.mp hnext
        exact hslash (List.prefix_append ['/', '/'] cs)
      show weigh .code ('/' :: behind) = _
      rw [weigh, if_neg (by decide), if_neg fun h => hnext h.2]
      rfl
  | plus | minus | star | equal | equalEqual | bangEqual | less | lessEqual | greater | greaterEqual | bang
  | leftParen | rightParen | comma | dot | semicolon => exact hplain (by simp [Reserved.text, Plain]) rfl
  | _ => exact absurd (by decide) hr

/-- **A lexeme weighs what its item does.** -/
theorem weigh_lexeme {item : Item} {span : Span} {lexeme : List Char} (h : item.Reads span behind lexeme)
    (hended : Gap.Ended (lexeme ++ behind)) :
    weigh .code (lexeme ++ behind) =
      ((weigh .code behind).1 || item.isOpenString, (weigh .code behind).2 + Item.balanceOf [item]) := by
  have hplain : (∀ c ∈ lexeme, Plain c) → item.isOpenString = false → Item.balanceOf [item] = 0 →
      weigh .code (lexeme ++ behind) =
        ((weigh .code behind).1 || item.isOpenString, (weigh .code behind).2 + Item.balanceOf [item]) := by
    intro hcs hclosed hzero
    rw [weigh_plain_append hcs, hclosed, hzero, add_zero, Bool.or_false]
  cases h with
  | eof hend => exact hplain (by simp) rfl rfl
  | symbol r hr =>
      rw [weigh_symbol r span hr hended.comment]
      simp [Item.isOpenString]
  | string content hcontent =>
      rw [List.cons_append, weigh_quote, List.append_assoc, weigh_string_append hcontent]
      simp [weigh, Item.isOpenString, Item.balanceOf, Item.is, TokenKind.is]
  | number whole fraction hsome hwhole hfraction =>
      refine hplain (fun c hc => ?_) rfl rfl
      rw [Number.spelling, List.mem_append] at hc
      obtain hc | hc := hc
      · exact plain_of_isDigit (hwhole c hc)
      · split_ifs at hc with hnone
        · cases hc
        · obtain rfl | hc := List.mem_cons.mp hc
          · decide
          · exact plain_of_isDigit (hfraction c hc)
  | word c cs hc hcs =>
      refine hplain (fun d hd => ?_) rfl ?_
      · obtain rfl | hd := List.mem_cons.mp hd
        · exact plain_of_continuesWord (Cursor.continuesWord_of_startsWord hc)
        · exact plain_of_continuesWord (hcs d hd)
      · have hopen := TokenKind.is_wordKind (r := .leftBrace) (by decide) (String.ofList (c :: cs))
        have hclose := TokenKind.is_wordKind (r := .rightBrace) (by decide) (String.ofList (c :: cs))
        simp only [Item.balanceOf, Item.is, List.countP_cons, List.countP_nil, hopen, hclose]
        rfl
  | unexpectedChar c hsymbol hquote hdigit hword =>
      refine hplain (fun d hd => ?_) rfl rfl
      rw [List.mem_singleton.mp hd]
      exact plain_of_unexpected hsymbol hquote
  | unterminatedString content hcontent hend =>
      subst hend
      rw [List.cons_append, weigh_quote, weigh_string_append hcontent]
      rfl

end Region

/-- The characters in front of a cursor weigh what the next item and those behind it do. -/
theorem Cursor.weigh_read (k : Cursor) :
    Region.weigh .code k.rest =
      ((Region.weigh .code k.read.2.rest).1 || k.read.1.isOpenString,
        (Region.weigh .code k.read.2.rest).2 + Item.balanceOf [k.read.1]) := by
  obtain ⟨gap, lexeme, behind, hfound, hread⟩ := k.read_found
  rw [hread, hfound.rest_eq, List.append_assoc, Region.weigh_gap hfound.isGap]
  exact Region.weigh_lexeme hfound.reads hfound.ended

/-- **The tokens of a text weigh what its characters do.** -/
theorem Cursor.weigh_rest {n : Nat} {k : Cursor} (hn : k.rest.length ≤ n) :
    Region.weigh .code k.rest = ((k.items n).any Item.isOpenString, Item.balanceOf (k.items n)) := by
  induction n generalizing k with
  | zero =>
      rw [List.eq_nil_of_length_eq_zero (Nat.le_zero.mp hn)]
      rfl
  | succ n ih =>
      obtain ⟨gap, lexeme, behind, hfound, hread⟩ := k.read_found
      have hbehind : k.read.2.rest.length ≤ n := by
        rw [hread]
        rw [hfound.rest_eq, List.length_append, List.length_append] at hn
        cases hlexeme : lexeme with
        | nil =>
            obtain rfl := hlexeme
            rw [hfound.reads.eq_eof.2]
            exact Nat.zero_le n
        | cons c cs =>
            rw [hlexeme, List.length_cons] at hn
            dsimp only
            omega
      rw [items, List.any_cons, Item.balanceOf_cons, k.weigh_read, ih hbehind, Bool.or_comm]

/-- After any number of items, what they weigh and what is left weigh as much as the whole. -/
theorem Cursor.weigh_afterItems (k : Cursor) (n : Nat) :
    (Region.weigh .code k.rest).2 = Item.balanceOf (k.items n) + (Region.weigh .code (k.afterItems n).rest).2 := by
  induction n generalizing k with
  | zero => rw [items, Item.balanceOf_nil, zero_add, afterItems]
  | succ n ih =>
      have hstep : (Region.weigh .code k.rest).2 =
          (Region.weigh .code k.read.2.rest).2 + Item.balanceOf [k.read.1] := congrArg Prod.snd k.weigh_read
      rw [hstep, ih k.read.2, items, Item.balanceOf_cons k.read.1 (items n k.read.2), afterItems]
      ring

theorem Item.weigh_all (source : String) :
    Region.weigh .code source.toList = ((Item.all source).any Item.isOpenString, Item.balance source) := by
  rw [Item.balance, Item.all_eq]
  exact Cursor.weigh_rest (k := Cursor.ofText source) (Nat.le_of_eq String.length_toList)

/-! ## Lines -/

namespace Region

/-- On a line, in which a comment goes on to the end, the braces are counted as they are when lines are collected. -/
theorem braceBalanceFrom_line {cs : List Char} (h : '\n' ∉ cs) :
    braceBalanceFrom false cs = Int32.ofInt (weigh .code cs).2 ∧
      braceBalanceFrom true cs = Int32.ofInt (weigh .string cs).2 ∧ (weigh .comment cs).2 = 0 := by
  induction cs with
  | nil => exact ⟨rfl, rfl, rfl⟩
  | cons c cs ih =>
      obtain ⟨hcode, hstring, hcomment⟩ := ih fun h' => h (List.mem_cons_of_mem _ h')
      have hc : c ≠ '\n' := fun h' => h (h' ▸ List.mem_cons_self)
      refine ⟨?_, ?_, ?_⟩
      · rw [weigh, braceBalanceFrom, if_neg Bool.false_ne_true]
        simp only [Bool.and_eq_true, decide_eq_true_eq, beq_iff_eq]
        split_ifs with hquote hslash hopen hclose
        · exact hstring
        · rw [hcomment]
          rfl
        · rw [brace, if_pos hopen, hcode, Int32.ofInt_add]
          rfl
        · rw [brace, if_neg hopen, if_pos hclose, hcode, ← sub_eq_add_neg, Int32.ofInt_sub]
          rfl
        · rw [brace, if_neg hopen, if_neg hclose, hcode, add_zero]
      · rw [weigh, braceBalanceFrom, if_pos rfl]
        by_cases hquote : c = '"'
        · simp [hquote, hcode]
        · have hne : (c != '"') = true := bne_iff_ne.mpr hquote
          rw [if_neg hquote, hne, hstring]
      · rw [weigh, if_neg hc, hcomment]

theorem natAbs_brace_le (c : Char) : (brace c).natAbs ≤ 1 := by
  unfold brace
  split_ifs <;> decide

theorem natAbs_weigh_le (r : Region) (cs : List Char) : (weigh r cs).2.natAbs ≤ cs.length := by
  induction cs generalizing r with
  | nil => cases r <;> exact Nat.le_refl 0
  | cons c cs ih =>
      rw [List.length_cons]
      cases r with
      | code =>
          have hbrace := natAbs_brace_le c
          have hcode := ih .code
          rw [weigh]
          split_ifs with hquote hslash
          · exact (ih .string).trans (Nat.le_succ _)
          · exact (ih .comment).trans (Nat.le_succ _)
          · exact (Int.natAbs_add_le _ _).trans (Nat.add_le_add hcode hbrace)
      | string => exact (ih _).trans (Nat.le_succ _)
      | comment => exact (ih _).trans (Nat.le_succ _)

/-- Behind a line that ends outside strings the next one begins outside strings and comments. -/
theorem weigh_newline {r : Region} {line : List Char} (hline : '\n' ∉ line) (hclosed : (weigh r line).1 = false)
    (rest : List Char) :
    weigh r (line ++ '\n' :: rest) = ((weigh .code rest).1, (weigh r line).2 + (weigh .code rest).2) := by
  induction line generalizing r with
  | nil =>
      cases r with
      | code => rw [List.nil_append, weigh_plain (by decide), weigh, zero_add]
      | string => cases hclosed
      | comment => rw [List.nil_append, weigh, weigh, if_pos rfl, zero_add]
  | cons c line ih =>
      have hline' : '\n' ∉ line := fun h => hline (List.mem_cons_of_mem _ h)
      have hc : c ≠ '\n' := fun h => hline (h ▸ List.mem_cons_self)
      cases r with
      | code =>
          have hhead : (line ++ '\n' :: rest).head? = some '/' ↔ line.head? = some '/' := by
            cases line <;> simp
          rw [List.cons_append]
          simp only [weigh, hhead] at hclosed ⊢
          split_ifs at hclosed ⊢ with hquote hslash
          · exact ih hline' hclosed
          · exact ih hline' hclosed
          · rw [ih hline' hclosed]
            simp only [Prod.mk.injEq, true_and]
            ring
      | string =>
          rw [weigh] at hclosed
          rw [List.cons_append, weigh, weigh, ih hline' hclosed]
      | comment =>
          rw [weigh] at hclosed
          rw [List.cons_append, weigh, weigh, ih hline' hclosed]

end Region

namespace Item

variable {line : String} {lines : List String}

theorem balance_eq (source : String) : balance source = (Region.weigh .code source.toList).2 := by
  rw [weigh_all]

/-- The braces of a line are those among its tokens, counted in 32 bits. -/
theorem braceBalance_eq (h : '\n' ∉ line.toList) : braceBalance line = Int32.ofInt (balance line) := by
  rw [balance_eq]
  exact (Region.braceBalanceFrom_line h).1

theorem natAbs_balance_le (source : String) : (balance source).natAbs ≤ source.length := by
  rw [balance_eq, ← String.length_toList]
  exact Region.natAbs_weigh_le .code source.toList

theorem intercalate_cons (hne : lines ≠ []) :
    "\n".intercalate (line :: lines) = line ++ "\n" ++ "\n".intercalate lines := by
  rw [← List.singleton_append, String.intercalate_append_of_ne_nil (by simp) hne, String.intercalate_singleton]

theorem natAbs_sum_balance_le (lines : List String) :
    (lines.map balance).sum.natAbs ≤ ("\n".intercalate lines).length := by
  induction lines with
  | nil => exact Nat.zero_le _
  | cons l lines ih =>
      have hl := natAbs_balance_le l
      rw [List.map_cons, List.sum_cons]
      cases lines with
      | nil =>
          rw [String.intercalate_singleton, List.map_nil, List.sum_nil, add_zero]
          exact hl
      | cons m lines =>
          rw [intercalate_cons (List.cons_ne_nil _ _), String.length_append, String.length_append]
          have hadd := Int.natAbs_add_le (balance l) ((m :: lines).map balance).sum
          omega

/-- Counting in 32 bits is exact on fewer than 2³¹ characters. -/
theorem toInt_ofInt_sum_balance (h : ("\n".intercalate lines).length < 2 ^ 31) :
    (Int32.ofInt (lines.map balance).sum).toInt = (lines.map balance).sum := by
  have hle := natAbs_sum_balance_le lines
  exact Int32.toInt_ofInt_of_le (by omega) (by omega)

/-- **Lines of which only the last may end in a string have the braces of all of them together.** -/
theorem balance_lines (hlines : ∀ l ∈ lines ++ [line], '\n' ∉ l.toList)
    (hclosed : ∀ l ∈ lines, ∀ item ∈ all l, item.isOpenString = false) :
    balance ("\n".intercalate (lines ++ [line])) = ((lines ++ [line]).map balance).sum := by
  induction lines with
  | nil => rw [List.nil_append, String.intercalate_singleton, List.map_singleton, List.sum_singleton]
  | cons l lines ih =>
      have hl : '\n' ∉ l.toList := hlines l (by simp)
      have hopen : (Region.weigh .code l.toList).1 = false := by
        rw [weigh_all]
        exact List.any_eq_false.mpr fun item hitem => by simp [hclosed l List.mem_cons_self item hitem]
      have ih := ih (fun m hm => hlines m (List.mem_cons_of_mem _ hm)) fun m hm => hclosed m (List.mem_cons_of_mem _ hm)
      have hnewline := Region.weigh_newline hl hopen ("\n".intercalate (lines ++ [line])).toList
      calc balance ("\n".intercalate (l :: lines ++ [line]))
          = (Region.weigh .code (l.toList ++ '\n' :: ("\n".intercalate (lines ++ [line])).toList)).2 := by
            rw [balance_eq, List.cons_append, intercalate_cons (by simp), String.toList_append, String.toList_append,
              List.append_assoc]
            rfl
        _ = balance l + balance ("\n".intercalate (lines ++ [line])) := by
            rw [hnewline, balance_eq, balance_eq]
        _ = ((l :: lines ++ [line]).map balance).sum := by
            rw [ih, List.cons_append, List.map_cons, List.sum_cons]

/-- Where the end is read, no brace is left. -/
theorem weigh_of_isEof {source : String} {n : Nat} (h : (ofText source n).isEof = true) :
    (Region.weigh .code ((Cursor.ofText source).afterItems n).rest).2 = 0 := by
  obtain ⟨gap, lexeme, behind, hfound, -⟩ := ((Cursor.ofText source).afterItems n).read_found
  obtain rfl := hfound.reads.isEof_iff.mp h
  obtain ⟨-, rfl⟩ := hfound.reads.eq_eof
  rw [hfound.rest_eq, List.append_assoc, Region.weigh_gap hfound.isGap]
  rfl

/-- A text can be weighed up to any item: what the items before it weigh, and what is left. -/
theorem balance_split (source : String) (n : Nat) :
    (Region.weigh .code source.toList).2 = balanceOf ((List.range n).map (ofText source)) +
      (Region.weigh .code ((Cursor.ofText source).afterItems n).rest).2 := by
  have hitems : (List.range n).map (ofText source) = (Cursor.ofText source).items n := Cursor.map_range_eq_items n _
  rw [hitems]
  exact Cursor.weigh_afterItems (Cursor.ofText source) n

end Item

/-- **The braces of a line are those among its tokens**, errors passed over: counting along the characters keeps step
with reading items, up to the end of the text. The count has 32 bits; it is exact on every line of fewer than 2³¹
characters, and wraps around on longer ones. -/
theorem Item.braceBalance_line (line : String) (hline : '\n' ∉ line.toList) :
    ∃ n ≤ line.length, (∀ m, (ofText line m).isEof = true ↔ n ≤ m) ∧
      (braceBalance line = Int32.ofInt (((List.range n).map (ofText line)).countP (is .leftBrace) -
        ((List.range n).map (ofText line)).countP (is .rightBrace))) ∧
      (line.length < 2 ^ 31 → (braceBalance line).toInt = ((List.range n).map (ofText line)).countP (is .leftBrace) -
        ((List.range n).map (ofText line)).countP (is .rightBrace)) ∧
      ∀ m, braceBalance line = Int32.ofInt (balanceOf ((List.range m).map (ofText line))) +
        braceBalanceFrom false ((Cursor.ofText line).afterItems m).rest := by
  have hsome := exists_isEof line
  have hfirst : ∀ m < Nat.find hsome, (ofText line m).isEof = false := fun m hm => by
    simpa using Nat.find_min hsome hm
  have hlength := Cursor.length_afterItems line (Nat.find hsome) hfirst
  have hbalance : balance line = balanceOf ((List.range (Nat.find hsome)).map (ofText line)) := by
    rw [balance_eq, balance_split line (Nat.find hsome), weigh_of_isEof (Nat.find_spec hsome), add_zero]
  have hcount := braceBalance_eq hline
  refine ⟨Nat.find hsome, by omega, fun m => ⟨fun h => Nat.find_min' hsome h, fun hm => ?_⟩, ?_, fun hshort => ?_,
    fun m => ?_⟩
  · obtain ⟨t, ht, hsame⟩ := ofText_of_isEof (Nat.find_spec hsome)
    rw [hsame m hm, isEof, ht]
    rfl
  · rw [hcount, hbalance]
    rfl
  · have hlength : ("\n".intercalate [line]).length < 2 ^ 31 := by
      rw [String.intercalate_singleton]
      exact hshort
    have hexact := toInt_ofInt_sum_balance hlength
    rw [List.map_singleton, List.sum_singleton, ← hcount, hbalance] at hexact
    exact hexact
  · obtain ⟨before, hin, -⟩ := Cursor.afterItems_in line m
    have hrest : '\n' ∉ ((Cursor.ofText line).afterItems m).rest := by
      intro h
      apply hline
      rw [hin.source_eq]
      exact List.mem_append_right _ h
    rw [hcount, balance_eq, balance_split line m, Int32.ofInt_add, (Region.braceBalanceFrom_line hrest).1]

/-- A line with a character that begins no token, slashes and a brace in a string, and a quote in a comment; and one
that ends in a string. -/
theorem Item.braceBalance_line_mixed :
    (∃ n ≤ 25, (∀ m, (ofText "\x7b # \"// \x7d\" \x7b1.\x7d\x7b // \" \x7d" m).isEof = true ↔ n ≤ m) ∧
      Item.balanceOf ((List.range n).map (ofText "\x7b # \"// \x7d\" \x7b1.\x7d\x7b // \" \x7d")) = 2) ∧
    ∃ n ≤ 6, (∀ m, (ofText "\x7d \"\x7b\x7b" m).isEof = true ↔ n ≤ m) ∧
      Item.balanceOf ((List.range n).map (ofText "\x7d \"\x7b\x7b")) = -1 := by
  obtain ⟨n, hn, hend, -, hcount, -⟩ := Item.braceBalance_line "\x7b # \"// \x7d\" \x7b1.\x7d\x7b // \" \x7d" (by decide)
  obtain ⟨n', hn', hend', -, hcount', -⟩ := Item.braceBalance_line "\x7d \"\x7b\x7b" (by decide)
  exact ⟨⟨n, hn.trans (by decide), hend, (hcount (by decide)).symm.trans (by decide)⟩, n', hn'.trans (by decide), hend',
    (hcount' (by decide)).symm.trans (by decide)⟩

/-! ## Lines that are collected -/

namespace Pending

/-- What is given out for each of the lines when they are added in turn, and what is collected then. -/
def pushAll (p : Pending) : List String → List (Option String) × Pending
  | [] => ([], p)
  | line :: lines => ((p.push line).1 :: ((p.push line).2.pushAll lines).1, ((p.push line).2.pushAll lines).2)

theorem pushAll_append (p : Pending) (as bs : List String) :
    p.pushAll (as ++ bs) =
      ((p.pushAll as).1 ++ ((p.pushAll as).2.pushAll bs).1, ((p.pushAll as).2.pushAll bs).2) := by
  induction as generalizing p with
  | nil => rfl
  | cons a as ih =>
      rw [List.cons_append, pushAll, ih]
      rfl

variable {line : String} {lines : List String}

/-- What is collected once `lines` have been added, if nothing has been given out. -/
def ofLines (lines : List String) : Pending :=
  { text := "\n".intercalate lines, balance := Int32.ofInt (lines.map Item.balance).sum }

theorem isEmpty_ofLines (hsome : ∀ l ∈ lines, l ≠ "") : (ofLines lines).isEmpty = true ↔ lines = [] := by
  constructor
  · intro hempty
    cases lines with
    | nil => rfl
    | cons l lines =>
        have htext : "\n".intercalate (l :: lines) = "" := String.isEmpty_iff.mp hempty
        have hl : l.toList <+: ("\n".intercalate (l :: lines)).toList := by
          cases lines with
          | nil => rw [String.intercalate_singleton]
          | cons m lines =>
              rw [String.intercalate_cons_cons, String.toList_append, String.toList_append, List.append_assoc]
              exact List.prefix_append _ _
        rw [htext] at hl
        exact absurd (String.toList_inj.mp (List.prefix_nil.mp hl)) (hsome l List.mem_cons_self)
  · rintro rfl
    rfl

theorem push_ofLines (hsome : ∀ l ∈ lines, l ≠ "") (hline : '\n' ∉ line.toList) :
    (ofLines lines).push line =
      if 0 < (ofLines (lines ++ [line])).balance then (none, ofLines (lines ++ [line]))
      else (some (ofLines (lines ++ [line])).text, {}) := by
  have hbalance : (ofLines lines).balance + braceBalance line = (ofLines (lines ++ [line])).balance := by
    rw [Item.braceBalance_eq hline, ofLines, ofLines, List.map_append, List.sum_append, Int32.ofInt_add,
      List.map_singleton, List.sum_singleton]
  have htext : (if (ofLines lines).isEmpty then line else (ofLines lines).text ++ "\n" ++ line) =
      (ofLines (lines ++ [line])).text := by
    by_cases hnone : lines = []
    · subst hnone
      simp [ofLines, isEmpty]
    · rw [if_neg fun h => hnone ((isEmpty_ofLines hsome).mp h)]
      simp [ofLines, String.intercalate_append_of_ne_nil hnone]
  unfold push
  dsimp only
  rw [hbalance, htext]

/-- Lines are collected as long as each leaves some brace open. -/
theorem pushAll_ofLines (hlines : ∀ l ∈ lines, l ≠ "" ∧ '\n' ∉ l.toList)
    (hopen : ∀ ls, ls ≠ [] → ls <+: lines → 0 < (ofLines ls).balance) :
    pushAll {} lines = (List.replicate lines.length none, ofLines lines) := by
  induction lines using List.reverseRecOn with
  | nil => rfl
  | append_singleton lines line ih =>
      have hlines' : ∀ l ∈ lines, l ≠ "" ∧ '\n' ∉ l.toList := fun l hl => hlines l (List.mem_append_left _ hl)
      have ih := ih hlines' fun ls hls hpre => hopen ls hls (hpre.trans (List.prefix_append _ _))
      have hlast := hopen (lines ++ [line]) (by simp) (List.prefix_refl _)
      rw [pushAll_append, ih, pushAll, push_ofLines (fun l hl => (hlines' l hl).1) (hlines line (by simp)).2,
        if_pos hlast, List.length_append, List.length_singleton, List.replicate_succ']
      rfl

end Pending

/-- **Lines are collected until the braces among the tokens of each of them close**, and then given out as one text, and
collecting starts anew. The braces are counted in 32 bits, which is exact as long as fewer than 2³¹ characters are
collected. If no line but the last ends inside a string, they are the braces among the tokens of the text. -/
theorem Pending.pushAll_collects (lines : List String) (line : String)
    (hlines : ∀ l ∈ lines ++ [line], l ≠ "" ∧ '\n' ∉ l.toList)
    (hopen : ∀ ls, ls ≠ [] → ls <+: lines → 0 < Int32.ofInt (ls.map Item.balance).sum) :
    (Pending.pushAll {} (lines ++ [line]) =
      if Int32.ofInt ((lines ++ [line]).map Item.balance).sum ≤ 0 then
        (List.replicate lines.length none ++ [some ("\n".intercalate (lines ++ [line]))], {})
      else
        (List.replicate lines.length none ++ [none],
          { text := "\n".intercalate (lines ++ [line])
            balance := Int32.ofInt ((lines ++ [line]).map Item.balance).sum })) ∧
    (∀ ls, ("\n".intercalate ls).length < 2 ^ 31 →
      (Int32.ofInt (ls.map Item.balance).sum).toInt = (ls.map Item.balance).sum) ∧
    ((∀ l ∈ lines, ∀ item ∈ Item.all l, item.isOpenString = false) →
      ∀ ls, ls ≠ [] → ls <+: lines ++ [line] → (ls.map Item.balance).sum = Item.balance ("\n".intercalate ls)) := by
  have hlines' : ∀ l ∈ lines, l ≠ "" ∧ '\n' ∉ l.toList := fun l hl => hlines l (List.mem_append_left _ hl)
  refine ⟨?_, fun ls hshort => Item.toInt_ofInt_sum_balance hshort, ?_⟩
  · rw [pushAll_append, pushAll_ofLines hlines' hopen, pushAll,
      push_ofLines (fun l hl => (hlines' l hl).1) (hlines line (by simp)).2]
    by_cases hend : (ofLines (lines ++ [line])).balance ≤ 0
    · rw [if_neg (Int32.not_lt.mpr hend)]
      exact (if_pos hend).symm
    · rw [if_pos (Int32.not_le.mp hend)]
      exact (if_neg hend).symm
  · intro hclosed ls hne hpre
    have hline : ∀ l ∈ ls, '\n' ∉ l.toList := fun l hl => (hlines l (hpre.subset hl)).2
    have hdrop : ls.dropLast <+: lines := by
      rcases List.prefix_concat_iff.mp hpre with rfl | hpre
      · rw [List.dropLast_concat]
      · exact (List.dropLast_prefix ls).trans hpre
    rw [← List.dropLast_append_getLast hne] at hline ⊢
    exact (Item.balance_lines hline fun l hl => hclosed l (hdrop.subset hl)).symm

/-- A block of three lines, with braces in a string and in a comment. -/
theorem Pending.pushAll_collects_block :
    Pending.pushAll {} ["\x7b print \"\x7d\";", "// \x7d", "\x7d"] =
        ([none, none, some "\x7b print \"\x7d\";\n// \x7d\n\x7d"], {}) ∧
      ["\x7b print \"\x7d\";", "// \x7d", "\x7d"].map Item.balance = [1, 0, -1] ∧
      Item.balance "\x7b print \"\x7d\";\n// \x7d\n\x7d" = 0 := by
  have hopen : ∀ ls, ls ≠ [] → ls <+: ["\x7b print \"\x7d\";", "// \x7d"] →
      0 < Int32.ofInt (ls.map Item.balance).sum := by
    intro ls hne hpre
    have hmem : ls ∈ [[], ["\x7b print \"\x7d\";"], ["\x7b print \"\x7d\";", "// \x7d"]] :=
      (List.mem_inits _ _).mpr hpre
    simp only [List.mem_cons, List.not_mem_nil, or_false] at hmem
    obtain rfl | rfl | rfl := hmem
    · exact absurd rfl hne
    · decide +kernel
    · decide +kernel
  obtain ⟨hpush, -, hwhole⟩ := Pending.pushAll_collects ["\x7b print \"\x7d\";", "// \x7d"] "\x7d" (by decide) hopen
  refine ⟨hpush.trans (by decide +kernel), by decide +kernel, ?_⟩
  exact (hwhole (by decide +kernel) _ (by simp) (List.prefix_refl _)).symm.trans (by decide +kernel)

/-- A line counts by itself. If a string goes on in the next line, that is taken to begin outside it, and here the
lines are given out although the tokens of both leave a brace open. -/
theorem Pending.pushAll_of_openString :
    Pending.pushAll {} ["\x7b print \"a", "\x7d\";"] = ([none, some "\x7b print \"a\n\x7d\";"], {}) ∧
      0 < Item.balance "\x7b print \"a" ∧ 0 < Item.balance "\x7b print \"a\n\x7d\";" := by
  decide +kernel

end Lox
