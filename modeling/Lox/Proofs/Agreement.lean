import Lox.Proofs.Listings

/-!
# Listings and the machine

The machine decodes code as listings do: what cannot be listed faults, and what can be listed is what the machine reads
before it goes on.

* `Execution.FaultsAs d x` : where `d` faults, `x` faults alike; `Execution.perform_faultsAs` says this of an
  instruction and its listed operand;
* `Execution.Still` : what never reads; `Execution.Leaves d x` : where both succeed, `x` leaves the reader where `d`
  does;
* `Opcode.Lands` : where an instruction leads to, by its listed operand; `Execution.perform_lands` says that it does;
* `Machine.agrees_with_listing` : the machine decodes, and loads constants, as listings do.
-/

namespace Lox

open ConstantEntry (SpellAll Numbered)

namespace Execution

variable {α β γ : Type} {d : Decoder α} {x : Execution β} {k : β → Execution γ} {m m' : Machine}

/-! ## The same faults -/

/-- Where `d` faults, so does `x`, with the same fault. -/
def FaultsAs (d : Decoder α) (x : Execution β) : Prop :=
  ∀ m f r, d m.reader = .error f r → ∃ m', x m = .error (.fault f) m'

theorem FaultsAs.decode (d : Decoder α) : FaultsAs d (Execution.decode d) :=
  fun _ _ _ h => ⟨_, decode_of_error h⟩

theorem FaultsAs.bind (h : FaultsAs d x) (k : β → Execution γ) : FaultsAs d (x >>= k) := by
  intro m f r hd
  obtain ⟨m', hx⟩ := h m f r hd
  exact ⟨m', apply_bind_of_error hx⟩

theorem FaultsAs.shown (h : FaultsAs d x) (f : α → String) : FaultsAs (do let a ← d; return f a) x := by
  intro m e r hd
  rcases apply_bind_eq_error.mp hd with hd | ⟨a, r', -, hd⟩
  · exact h m e r hd
  · cases hd

theorem FaultsAs.of_pure (a : α) (x : Execution β) : FaultsAs (pure a) x := by
  intro m f r hd
  cases hd

/-- An instruction whose operand cannot be listed faults for the same reason. -/
theorem perform_faultsAs (offset : Nat) (op : Opcode) : FaultsAs (Listing.operand op.form) (perform offset op) := by
  have hbyte := FaultsAs.shown (.decode Reader.byte) fun b => s!" {b.toNat}"
  have hconstant : FaultsAs (Listing.operand .byte) constant := hbyte.bind _
  have hname : FaultsAs (Listing.operand .byte) globalName := hconstant.bind _
  have hword := FaultsAs.shown (.decode Reader.word) fun n => s!" {n}"
  cases op with
  | pushConstant => exact hconstant.bind _
  | defineGlobal => exact hname.bind _
  | setGlobal => exact hname.bind _
  | getGlobal => exact hname.bind _
  | setLocal => exact hbyte.bind _
  | getLocal => exact hbyte.bind _
  | jump => exact hword.bind _
  | jumpIfFalse => exact hword.bind _
  | jumpIfTrue => exact hword.bind _
  | jumpSigned => exact (FaultsAs.shown (.decode Reader.signedWord) fun n => s!" {n}").bind _
  | _ => exact .of_pure "" _

/-! ## The same place -/

def Still (x : Execution β) : Prop :=
  ∀ m b m', x m = .ok b m' → m'.reader = m.reader

/-- Where both succeed, `x` leaves the reader where `d` does. -/
def Leaves (d : Decoder α) (x : Execution β) : Prop :=
  ∀ m a r b m', d m.reader = .ok a r → x m = .ok b m' → m'.reader = r

theorem Still.bind (hx : Still x) (hk : ∀ b, Still (k b)) : Still (x >>= k) := by
  intro m c m' h
  obtain ⟨b, m₁, hb, h⟩ := apply_bind_eq_ok.mp h
  rw [hk b m₁ c m' h, hx m b m₁ hb]

theorem Still.get_bind {k : Machine → Execution γ} (hk : ∀ m, Still (k m)) : Still (get >>= k) :=
  fun m c m' h => hk m m c m' h

theorem Still.of_pure (b : β) : Still (pure b) := by
  intro m c m' h
  cases h
  rfl

theorem Still.of_throw (f : Failure) : Still (throw f : Execution β) := by
  intro m c m' h
  cases h

theorem Still.of_modify {f : Machine → Machine} (hf : ∀ m, (f m).reader = m.reader) : Still (modify f) := by
  intro m c m' h
  cases h
  exact hf m

theorem push_still (v : Value) : Still (push v) :=
  .of_modify fun _ => rfl

theorem pop_still : Still pop := by
  intro m v m' h
  obtain ⟨rest, -, rfl⟩ := pop_eq_ok h
  rfl

theorem top_still : Still top := by
  intro m v m' h
  obtain ⟨-, rfl⟩ := top_eq_ok h
  rfl

theorem raise_still (offset : Nat) (e : Span → RuntimeError) : Still (raise offset e : Execution β) :=
  .get_bind fun _ => .of_throw _

theorem place_still (slot : UInt8) : Still (place slot) := by
  refine .get_bind fun m => ?_
  dsimp only
  split
  · exact .of_pure _
  · exact .of_throw _

theorem printLine_still (text : String) : Still (printLine text) := by
  intro m b m' h
  unfold printLine at h
  split at h <;> cases h
  rfl

theorem Leaves.decode (d : Decoder α) : Leaves d (Execution.decode d) := by
  intro m a r b m' hd h
  rw [decode_apply hd] at h
  cases h
  rfl

theorem Leaves.bind (h : Leaves d x) (hk : ∀ b, Still (k b)) : Leaves d (x >>= k) := by
  intro m a r c m' hd hx
  obtain ⟨b, m₁, hb, hx⟩ := apply_bind_eq_ok.mp hx
  rw [hk b m₁ c m' hx, h m a r b m₁ hd hb]

theorem Leaves.shown (h : Leaves d x) (f : α → String) : Leaves (do let a ← d; return f a) x := by
  intro m s r b m' hd hx
  obtain ⟨a, r', ha, hd⟩ := apply_bind_eq_ok.mp hd
  cases hd
  exact h m a _ b m' ha hx

theorem Still.leaves (h : Still x) (a : α) : Leaves (pure a) x := by
  intro m a' r b m' hd hx
  cases hd
  exact h m b m' hx

theorem constant_leaves : Leaves Reader.byte constant := by
  refine .bind (.decode Reader.byte) fun i => .get_bind fun m => ?_
  split
  · exact .of_pure _
  · exact .of_throw _

theorem globalName_leaves : Leaves Reader.byte globalName := by
  refine .bind constant_leaves fun c => ?_
  split
  · exact .of_pure _
  · exact .of_throw _

end Execution

/-! ## Jumps -/

def Opcode.jumps : Opcode → List Value → Bool
  | .jump, _ => true
  | .jumpSigned, _ => true
  | .jumpIfFalse, stack => stack.head?.any (!·.truthy)
  | .jumpIfTrue, stack => stack.head?.any (·.truthy)
  | _, _ => false

/-- Where an instruction leads to that is executed with the given stack: `r` is behind its operand, which is listed as
`text`. -/
def Opcode.Lands (op : Opcode) (stack : List Value) (text : String) (r r' : Reader) : Prop :=
  r'.code = r.code ∧
    if op.jumps stack then ∃ d : Int, text = s!" {d}" ∧ (r'.offset : Int) = r.offset + d else r'.offset = r.offset

theorem Opcode.Lands.of_eq {op : Opcode} {stack : List Value} {text : String} {r r' : Reader}
    (hop : op.jumps stack = false) (h : r' = r) : op.Lands stack text r r' := by
  subst h
  exact ⟨rfl, by rw [if_neg (by simp [hop])]⟩

theorem Reader.jump_eq_ok {d : Int} {r r' : Reader} (h : jump d r = .ok () r') :
    r'.code = r.code ∧ (r'.offset : Int) = r.offset + d := by
  unfold jump at h
  rw [apply_bind_of_ok (apply_get r), seek] at h
  split_ifs at h with hd
  cases h
  exact ⟨rfl, Int.toNat_of_nonneg hd.1⟩

namespace Execution

variable {m m' : Machine} {r : Reader} {text : String}

theorem jump_lands {op : Opcode} {stack : List Value} (hop : op.jumps stack = true) {d : Int} (htext : text = s!" {d}")
    (h : decode (Reader.jump d) { m with reader := r } = .ok () m') : op.Lands stack text r m'.reader := by
  obtain ⟨r', hr', rfl⟩ := decode_eq_ok h
  obtain ⟨hcode, hoffset⟩ := Reader.jump_eq_ok hr'
  exact ⟨hcode, by rw [if_pos hop]; exact ⟨d, htext, hoffset⟩⟩

/-- Reading a distance and jumping. -/
theorem decode_jump_lands {α : Type} {d : Decoder α} {op : Opcode} (hop : op.jumps m.stack = true) (distance : α → Int)
    (htext : (do let a ← d; return s!" {distance a}" : Decoder String) m.reader = .ok text r)
    (h : (do let a ← decode d; decode (Reader.jump (distance a)) : Execution Unit) m = .ok () m') :
    op.Lands m.stack text r m'.reader := by
  obtain ⟨a, r₁, ha, htext⟩ := apply_bind_eq_ok.mp htext
  cases htext
  rw [apply_bind_of_ok (decode_apply ha)] at h
  exact jump_lands hop rfl h

/-- A conditional jump that jumps when the topmost value holds just as it should. -/
theorem jumpWhen_lands {op : Opcode} {holds : Bool}
    (hop : ∀ v rest, op.jumps (v :: rest) = (v.truthy == holds)) (htext : Listing.operand .word m.reader = .ok text r)
    (h : jumpWhen holds m = .ok () m') : op.Lands m.stack text r m'.reader := by
  obtain ⟨n, r₁, hn, htext⟩ := apply_bind_eq_ok.mp htext
  cases htext
  unfold jumpWhen at h
  rw [apply_bind_of_ok (decode_apply hn)] at h
  obtain ⟨v, m₁, hv, h⟩ := apply_bind_eq_ok.mp h
  obtain ⟨⟨rest, hstack⟩, rfl⟩ := top_eq_ok hv
  have hjumps : op.jumps m.stack = (v.truthy == holds) := by rw [← hop v rest, ← hstack]
  by_cases hholds : v.truthy = holds
  · rw [if_pos hholds] at h
    exact jump_lands (by rw [hjumps, hholds, beq_self_eq_true]) rfl h
  · rw [if_neg hholds] at h
    cases h
    exact .of_eq (by rw [hjumps, beq_eq_false_iff_ne.mpr hholds]) rfl

/-- An instruction leads to where its listed operand says. -/
theorem perform_lands (offset : Nat) (op : Opcode) (htext : Listing.operand op.form m.reader = .ok text r)
    (h : perform offset op m = .ok () m') : op.Lands m.stack text r m'.reader := by
  -- what has no operand never reads, and what has a byte reads just that; only jumps go elsewhere
  have hstill (hform : op.form = .none) (hop : op.jumps m.stack = false) (hx : Still (perform offset op)) :
      op.Lands m.stack text r m'.reader := by
    rw [hform] at htext
    exact .of_eq hop (hx.leaves "" m text r () m' htext h)
  have hbyte (hform : op.form = .byte) (hop : op.jumps m.stack = false) (hx : Leaves Reader.byte (perform offset op)) :
      op.Lands m.stack text r m'.reader := by
    rw [hform] at htext
    exact .of_eq hop (hx.shown (fun b => s!" {b.toNat}") m text r () m' htext h)
  cases op with
  | nop => exact hstill rfl rfl (.of_pure ())
  | binary op =>
      refine hstill rfl rfl (.bind pop_still fun b => .bind pop_still fun a => ?_)
      cases op.apply a b with
      | ok v => exact push_still v
      | error e => cases e <;> exact raise_still _ _
  | unary op =>
      refine hstill rfl rfl (.bind pop_still fun v => ?_)
      cases op.apply v with
      | ok v => exact push_still v
      | error e => exact raise_still _ _
  | pushConstant => exact hbyte rfl rfl (.bind constant_leaves fun c => push_still _)
  | pushNil => exact hstill rfl rfl (push_still _)
  | pushTrue => exact hstill rfl rfl (push_still _)
  | pushFalse => exact hstill rfl rfl (push_still _)
  | pop => exact hstill rfl rfl (.bind pop_still fun v => .of_pure ())
  | print => exact hstill rfl rfl (.bind pop_still fun v => printLine_still _)
  | defineGlobal =>
      exact hbyte rfl rfl (.bind globalName_leaves fun name => .bind pop_still fun v => .of_modify fun _ => rfl)
  | setGlobal =>
      refine hbyte rfl rfl (.bind globalName_leaves fun name => .bind top_still fun v => .get_bind fun m => ?_)
      split
      · exact .of_modify fun _ => rfl
      · exact raise_still _ _
  | getGlobal =>
      refine hbyte rfl rfl (.bind globalName_leaves fun name => .get_bind fun m => ?_)
      split
      · exact push_still _
      · exact raise_still _ _
  | setLocal =>
      refine hbyte rfl rfl (.bind (.decode _) fun slot => .bind top_still fun v => ?_)
      exact .bind (place_still slot) fun i => .of_modify fun _ => rfl
  | getLocal =>
      refine hbyte rfl rfl (.bind (.decode _) fun slot => .bind (place_still slot) fun i => ?_)
      exact .get_bind fun m => push_still _
  | jump => exact decode_jump_lands rfl (fun n : Nat => (n : Int)) htext h
  | jumpIfFalse =>
      refine jumpWhen_lands (fun v rest => ?_) htext h
      change (!v.truthy) = _
      cases v.truthy <;> rfl
  | jumpIfTrue =>
      refine jumpWhen_lands (fun v rest => ?_) htext h
      change v.truthy = _
      cases v.truthy <;> rfl
  | jumpSigned => exact decode_jump_lands rfl id htext h
  | trap => cases h

end Execution

/-! ## Decoding alike -/

namespace Listing

variable {l l' : Listing} {f : Fault}

theorem decode_eq_error {α : Type} {d : Decoder α} (h : decode d l = .error f l') :
    d l.reader = .error f l'.reader := by
  unfold decode at h
  split at h <;> cases h
  assumption

/-- An instruction cannot be listed because of its opcode or because of its operand. -/
theorem instruction_eq_error (h : instruction l = .error f l') :
    (∃ r, Reader.opcode l.reader = .error f r) ∨
      ∃ op r r', Reader.opcode l.reader = .ok op r ∧ operand op.form r = .error f r' := by
  rcases apply_bind_eq_error.mp h with h | ⟨op, l₁, hop, h⟩
  · exact .inl ⟨_, decode_eq_error h⟩
  obtain ⟨hopcode, -⟩ := decode_eq_ok.mp hop
  rcases apply_bind_eq_error.mp h with h | ⟨_, l₂, hl₂, h⟩
  · cases h
  cases hl₂
  rcases apply_bind_eq_error.mp h with h | ⟨text, l₃, hl₃, h⟩
  · have hoperand := decode_eq_error h
    exact .inr ⟨op, _, _, hopcode, hoperand⟩
  · cases h

end Listing

namespace Machine

variable {m m' : Machine} {code : Array UInt8} {spans : SpanTable}

/-- The machine at its next instruction and its listing, which is appended to `text`. -/
structure StepsAsListed (m : Machine) (text : String) : Prop where
  /-- What cannot be listed faults alike. -/
  faults : ∀ f l, Listing.instruction ⟨m.reader, text⟩ = .error f l → ∃ m', step m = .error (.fault f) m'
  /-- What is listed ends behind its operand, and so does the machine if it does not jump. -/
  lands : ∀ l, Listing.instruction ⟨m.reader, text⟩ = .ok () l →
    ∃ (op : Opcode) (operand : String), m.reader.code[m.reader.offset]? = some op.toByte ∧
      l.text = text ++ op.mnemonic ++ (operand ++ "\n") ∧
      l.reader = ⟨m.reader.code, m.reader.offset + 1 + op.operandSize⟩ ∧
      ∀ m', step m = .ok () m' → op.Lands m.stack operand l.reader m'.reader

theorem stepsAsListed (m : Machine) (text : String) : m.StepsAsListed text where
  faults f l h := by
    unfold step
    rw [apply_bind_of_ok (apply_get m)]
    rcases Listing.instruction_eq_error h with ⟨r, hr⟩ | ⟨op, r, r', hop, hr'⟩
    · exact ⟨_, apply_bind_of_error (Execution.decode_of_error hr)⟩
    · rw [apply_bind_of_ok (Execution.decode_apply hop)]
      exact Execution.perform_faultsAs _ op { m with reader := r } f r' hr'
  lands l h := by
    obtain ⟨op, r, operand, hop, hoperand, htext⟩ := Listing.instruction_eq_ok.mp h
    obtain ⟨hcode, rfl⟩ := Reader.opcode_eq_ok hop
    obtain ⟨bs, hbs, -⟩ := Listing.operand_eq_ok.mp hoperand
    obtain ⟨-, -, hreader⟩ := Reader.bytes_eq_ok hbs
    rw [← op.operandSize_eq] at hreader
    refine ⟨op, operand, hcode, htext, hreader, ?_⟩
    intro m' hstep
    unfold step at hstep
    rw [apply_bind_of_ok (apply_get m), apply_bind_of_ok (Execution.decode_apply hop)] at hstep
    exact Execution.perform_lands (m := { m with reader := m.reader.skip 1 }) _ op hoperand hstep

/-- A machine that has loaded code and its listing: both have read the same constants, and stand where the instructions
begin. -/
structure LoadsAsListed (code : Array UInt8) (m : Machine) (es : List ConstantEntry) : Prop where
  spelt : ∃ bytes behind, code.toList = bytes ++ behind ∧ SpellAll es bytes ∧ m.reader = ⟨code, bytes.length⟩
  constants : m.constants = (es.map (·.constant.value)).toArray
  numbered : Numbered 0 es
  listed : Listing.constants code.size ⟨⟨code, 0⟩, ""⟩ = .ok () ⟨m.reader, Listing.lines Listing.constantLine es⟩
  ofCode_ok : ∀ text, Listing.ofCode code = .ok text ↔
    ∃ l, Listing.instructions code.size ⟨m.reader, Listing.lines Listing.constantLine es⟩ = .ok () l ∧ l.text = text
  ofCode_error : ∀ f, Listing.ofCode code = .error f ↔
    ∃ l, Listing.instructions code.size ⟨m.reader, Listing.lines Listing.constantLine es⟩ = .error f l

theorem loadsAsListed (h : load code spans m = .ok () m') : ∃ es, LoadsAsListed code m' es := by
  unfold load at h
  rw [apply_bind_of_ok (apply_modify _ _)] at h
  obtain ⟨es, r, hes, hnumbered, rfl⟩ := Execution.readAll_of_loadConstants h
  have hlisted : Listing.constants code.size ⟨⟨code, 0⟩, ""⟩ = .ok () ⟨r, Listing.lines Listing.constantLine es⟩ :=
    (Listing.constants_lists _ _ _).mpr ⟨es, hes, String.empty_append.symm⟩
  obtain ⟨bytes, behind, hbytes, hspells, rfl⟩ := ConstantEntry.readAll_spelt hes
  refine ⟨es, ⟨bytes, behind, hbytes, hspells, ?_⟩, by simp [start], hnumbered, hlisted, ?_, ?_⟩
  · exact congrArg (Reader.mk code) (Nat.zero_add _)
  · intro text
    rw [Listing.ofCode_eq_ok_iff, Listing.whole, apply_bind_of_ok hlisted]
  · intro f
    rw [Listing.ofCode_eq_error_iff, Listing.whole, apply_bind_of_ok hlisted]

/-- **The machine decodes as listings do.** -/
theorem agrees_with_listing :
    (∀ (m : Machine) (text : String), m.StepsAsListed text) ∧
      ∀ code spans (m m' : Machine), load code spans m = .ok () m' → ∃ es, LoadsAsListed code m' es :=
  ⟨stepsAsListed, fun _ _ _ _ => loadsAsListed⟩

def overleap : Array UInt8 :=
  #[0x40, 0, 0x64, 0, 0, 0, 0, 0, 0, 0xf0, 0x3f, 25, 3, 0, 13, 0, 18]

theorem agrees_with_listing_overleap :
    (∃ m' es, load overleap {} {} = .ok () m' ∧ m'.reader = ⟨overleap, 11⟩ ∧ LoadsAsListed overleap m' es) ∧
      ∃ m' l, Listing.instruction ⟨⟨overleap, 11⟩, ""⟩ = .ok () l ∧ l.text = "jmp_false 3\n" ∧
        step { reader := ⟨overleap, 11⟩, stack := [.nil] } = .ok () m' ∧ m'.reader.offset = 17 ∧
        ∃ (op : Opcode) (operand : String), l.text = "" ++ op.mnemonic ++ (operand ++ "\n") ∧
          op.Lands [.nil] operand l.reader m'.reader := by
  constructor
  · obtain ⟨es, hes⟩ := agrees_with_listing.2 overleap {} {} _ rfl
    exact ⟨_, es, rfl, rfl, hes⟩
  · refine ⟨_, _, rfl, by decide, rfl, rfl, ?_⟩
    obtain ⟨op, operand, -, htext, -, hlands⟩ :=
      (agrees_with_listing.1 { reader := ⟨overleap, 11⟩, stack := [.nil] } "").lands _ rfl
    exact ⟨op, operand, htext, hlands _ rfl⟩

end Machine

end Lox
