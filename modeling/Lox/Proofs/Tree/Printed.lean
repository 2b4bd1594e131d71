import Lox.Proofs.Decimal.Plain
import Lox.Proofs.Scan.Lexemes
import Lox.Proofs.Text.Quoted
import Lox.Tree.Printer
/-!
# Printed trees read back

The printed form of a tree shows its shape: what is left of it without tokens, lines and the
distances of variables. `Shape.read` reads a shape from the start of a text. It does so for every
tree whose names are no reserved words and whose numbers are written in digits (`prints_write`),
so trees of this kind with the same printed form have the same shape (`shape_eq_of_toBytes_eq`).
-/

namespace Lox

/-! ## Shapes -/

/-- A tree without tokens, lines and distances. A number is known by its written form. -/
inductive Shape where
  | nil
  | bool (b : Bool)
  | number (text : Bytes)
  | string (s : Bytes)
  | grouping (inner : Shape)
  | unary (op : UnaryOp) (operand : Shape)
  | binary (op : BinaryOp) (left right : Shape)
  | logical (op : LogicalOp) (left right : Shape)
  | var (name : Bytes)
  | assign (name : Bytes) (value : Shape)
  | call (callee : Shape) (args : List Shape)
  | get (object : Shape) (name : Bytes)
  | set (object : Shape) (name : Bytes) (value : Shape)
  | this
  | super (method : Bytes)

def Literal.shape : Literal → Shape
  | nil => .nil
  | bool b => .bool b
  | number x => .number (numberLayout.write x)
  | string s => .string s

mutual

def Expr.shape : Expr → Shape
  | .literal _ value => value.shape
  | .grouping _ inner => .grouping inner.shape
  | .unary op _ operand => .unary op operand.shape
  | .binary op _ left right => .binary op left.shape right.shape
  | .logical op _ left right => .logical op left.shape right.shape
  | .var ref => .var ref.name.lexeme
  | .assign ref value => .assign ref.name.lexeme value.shape
  | .call _ callee args => .call callee.shape (Expr.shapes args)
  | .get object name => .get object.shape name.lexeme
  | .set object name value => .set object.shape name.lexeme value.shape
  | .this _ => .this
  | .super _ method => .super method.lexeme

def Expr.shapes : List Expr → List Shape
  | [] => []
  | e :: es => e.shape :: Expr.shapes es

end

namespace Shape

/-! ## Reading

The reader trusts its text: of a text that no tree is printed as it makes something or other. -/

/-- The word at the start of a text, and what follows it. -/
def word (text : Bytes) : Bytes × Bytes :=
  (text.takeWhile Scan.isWordByte, text.dropWhile Scan.isWordByte)

/-- The number at the start of a text: a point belongs to it if there is a digit on either side. -/
def numeral (text : Bytes) : Bytes :=
  let whole := text.takeWhile Bytes.isDigit
  match text.dropWhile Bytes.isDigit with
  | point :: d :: rest =>
    if point == '.'.toUInt8 && Bytes.isDigit d then
      whole ++ point :: (d :: rest).takeWhile Bytes.isDigit
    else whole
  | _ => whole

/-- What an assignment makes of its sides. -/
def assigned : Shape → Shape → Shape
  | var name, value => assign name value
  | get object name, value => set object name value
  | target, _ => target

/-- The operators that stand between operands, and what they make of these. -/
def operators : List (String × (Shape → Shape → Shape)) :=
  [("+", binary .add), ("-", binary .sub), ("*", binary .mul), ("/", binary .div),
    ("==", binary .eq), ("!=", binary .ne), ("<", binary .lt), ("<=", binary .le),
    (">", binary .gt), (">=", binary .ge), ("and", logical .and), ("or", logical .or),
    ("=", assigned)]

/-- The word at the start of a text, or else all up to a blank. -/
def symbol (text : Bytes) : Bytes :=
  if text.head?.any Bytes.isLetter then (word text).1 else text.takeWhile (· != ' '.toUInt8)

/-- The operator at the start of a text. -/
def operator? (text : Bytes) : Option (String × (Shape → Shape → Shape)) :=
  operators.find? fun entry => utf8 entry.1 == symbol text

/-- What a word stands for. -/
def named (name rest : Bytes) : Shape × Bytes :=
  match Kind.ofWord name with
  | .kwNil => (nil, rest)
  | .kwTrue => (bool true, rest)
  | .kwFalse => (bool false, rest)
  | .kwThis => (this, rest)
  | .kwSuper => (super (word rest.tail).1, (word rest.tail).2)
  | _ => (var name, rest)

/-- What stands between a left operand, with a blank behind it, and the closing parenthesis: an
operator and the right operand, or, `group` having been taken for an operand, what is grouped. -/
def infixed (inner : Bytes → Shape × Bytes) (left : Shape) (text : Bytes) : Shape × Bytes :=
  match operator? text with
  | some (symbol, node) =>
    let right := inner (text.drop ((utf8 symbol).length + 1))
    (node left right.1, right.2.tail)
  | none =>
    let grouped := inner text
    (grouping grouped.1, grouped.2.tail)

/-- What stands behind an opening parenthesis that starts an expression. -/
def parenthesized (inner : Bytes → Shape × Bytes) (text : Bytes) : Shape × Bytes :=
  if text.head? == some '-'.toUInt8 then (unary .neg (inner text.tail).1, (inner text.tail).2.tail)
  else if text.head? == some '!'.toUInt8 then
    (unary .not (inner text.tail).1, (inner text.tail).2.tail)
  else
    let left := inner text
    infixed inner left.1 left.2.tail

/-- An operand without the calls and properties behind it. -/
def operand (inner : Bytes → Shape × Bytes) : Bytes → Shape × Bytes
  | [] => (nil, [])
  | b :: rest =>
    if b == '('.toUInt8 then parenthesized inner rest
    else if b == '"'.toUInt8 then
      (string (Quoted.decode (b :: rest)).1, (Quoted.decode (b :: rest)).2)
    else if Bytes.isDigit b then
      (number (numeral (b :: rest)), (b :: rest).drop (numeral (b :: rest)).length)
    else named (word (b :: rest)).1 (word (b :: rest)).2

mutual

/-- Reads an expression from the start of a text, with calls nested no deeper than the fuel. -/
def read : Nat → Bytes → Shape × Bytes
  | 0, text => (nil, text)
  | fuel + 1, text =>
    let first := operand (read fuel) text
    extend fuel first.1 first.2

/-- The calls and properties behind an operand. -/
def extend : Nat → Shape → Bytes → Shape × Bytes
  | 0, s, text => (s, text)
  | _, s, [] => (s, [])
  | fuel + 1, s, b :: rest =>
    if b == '('.toUInt8 then
      let args := arguments fuel rest
      extend fuel (call s args.1) args.2
    else if b == '.'.toUInt8 then extend fuel (get s (word rest).1) (word rest).2
    else (s, b :: rest)

/-- Arguments up to their closing parenthesis. -/
def arguments : Nat → Bytes → List Shape × Bytes
  | 0, text => ([], text)
  | fuel + 1, text =>
    if text.head? == some ')'.toUInt8 then ([], text.tail)
    else
      let first := read fuel text
      let comma := first.2.head? == some ','.toUInt8
      let others := arguments fuel (if comma then first.2.drop 2 else first.2)
      (first.1 :: others.1, others.2)

end

/-! ## Words and numbers -/

/-- What may follow a word or a number: nothing that makes it longer. -/
structure Boundary (text : Bytes) : Prop where
  next : ∀ c, text.head? = some c → Scan.isWordByte c = false
  point : ∀ c rest, text = '.'.toUInt8 :: c :: rest → Bytes.isDigit c = false

/-- A letter with letters and digits after it. -/
def IsWord (w : Bytes) : Prop :=
  ∃ b rest, w = b :: rest ∧ Bytes.isLetter b = true ∧ ∀ c ∈ rest, Scan.isWordByte c = true

theorem isWord_cons {b : UInt8} {rest : Bytes} (hb : Bytes.isLetter b = true)
    (hrest : rest.all Scan.isWordByte = true) : IsWord (b :: rest) :=
  ⟨b, rest, rfl, hb, List.all_eq_true.1 hrest⟩

/-- A word that is not reserved. -/
structure IsName (w : Bytes) : Prop where
  word : IsWord w
  kind : Kind.ofWord w = .ident

variable {w text rest : Bytes}

theorem isWordByte_of_isLetter {b : UInt8} (h : Bytes.isLetter b = true) :
    Scan.isWordByte b = true := by
  simp [Scan.isWordByte, h]

theorem isDigit_of_not_isWordByte {b : UInt8} (h : Scan.isWordByte b = false) :
    Bytes.isDigit b = false := by
  simp only [Scan.isWordByte, Bool.or_eq_false_iff] at h
  exact h.2

theorem isDigit_of_isLetter {b : UInt8} (h : Bytes.isLetter b = true) :
    Bytes.isDigit b = false := by
  cases hd : Bytes.isDigit b with
  | false => rfl
  | true =>
    rw [Bytes.isLetter_of_isDigit hd] at h
    cases h

theorem boundary_nil : Boundary [] where
  next c hc := by cases hc
  point c rest h := by cases h

theorem boundary_cons {b : UInt8} (rest : Bytes) (hb : Scan.isWordByte b = false)
    (hp : b ≠ '.'.toUInt8) : Boundary (b :: rest) where
  next c hc := by
    obtain rfl := Option.some.inj hc
    exact hb
  point c rest h := absurd (List.cons.inj h).1 hp

theorem boundary_blank (rest : Bytes) : Boundary (utf8 " " ++ rest) :=
  boundary_cons rest rfl (by decide)

theorem boundary_closing (rest : Bytes) : Boundary (utf8 ")" ++ rest) :=
  boundary_cons rest rfl (by decide)

theorem boundary_property (hw : IsWord w) (rest : Bytes) :
    Boundary (utf8 "." ++ (w ++ rest)) where
  next c hc := by
    obtain rfl := Option.some.inj hc
    rfl
  point c rest' h := by
    obtain ⟨b, bs, rfl, hb, -⟩ := hw
    obtain ⟨rfl, -⟩ := List.cons.inj (List.cons.inj h).2
    exact isDigit_of_isLetter hb

/-- A row of bytes of one class with something else behind it is found as a whole. -/
theorem span_append {p : UInt8 → Bool} {xs : Bytes} (hxs : ∀ c ∈ xs, p c = true)
    (hrest : ∀ c, rest.head? = some c → p c = false) :
    (xs ++ rest).takeWhile p = xs ∧ (xs ++ rest).dropWhile p = rest := by
  rw [List.takeWhile_append_of_pos hxs, List.dropWhile_append_of_pos hxs]
  cases rest with
  | nil => simp
  | cons c rest => simp [hrest c rfl]

theorem word_append (hw : IsWord w) (hrest : Boundary rest) : word (w ++ rest) = (w, rest) := by
  obtain ⟨b, bs, rfl, hb, hbs⟩ := hw
  have hall : ∀ c ∈ b :: bs, Scan.isWordByte c = true :=
    List.forall_mem_cons.2 ⟨isWordByte_of_isLetter hb, hbs⟩
  obtain ⟨htake, hdrop⟩ := span_append hall hrest.next
  rw [word, htake, hdrop]

theorem numeral_append (hn : Decimal.Numeral text) (hrest : Boundary rest) :
    numeral (text ++ rest) = text := by
  have hdigits : ∀ c, rest.head? = some c → Bytes.isDigit c = false := fun c hc =>
    isDigit_of_not_isWordByte (hrest.next c hc)
  cases hn with
  | whole hne hds =>
    obtain ⟨htake, hdrop⟩ := span_append hds hdigits
    unfold numeral
    rw [htake, hdrop]
    split
    · rename_i point d rest
      split
      · rename_i hpoint
        simp only [Bool.and_eq_true, beq_iff_eq] at hpoint
        rw [hrest.point d rest (by rw [hpoint.1])] at hpoint
        cases hpoint.2
      · rfl
    · rfl
  | @fraction ds es hne hds hne' hes =>
    obtain ⟨e, es, rfl⟩ := List.exists_cons_of_ne_nil hne'
    have hpoint : ∀ c, ('.'.toUInt8 :: (e :: es ++ rest)).head? = some c →
        Bytes.isDigit c = false := by
      intro c hc
      obtain rfl := Option.some.inj hc
      rfl
    obtain ⟨htake, hdrop⟩ := span_append hds hpoint
    obtain ⟨htake', -⟩ := span_append hes hdigits
    unfold numeral
    rw [List.append_assoc, List.cons_append, htake, hdrop, List.cons_append]
    dsimp only
    rw [← List.cons_append, htake', if_pos (by simp [hes e List.mem_cons_self])]

/-! ## Operators -/

/-- How the printed form of a tree begins: never with an operator. -/
inductive Opening : Bytes → Prop
  | paren (rest : Bytes) : Opening ('('.toUInt8 :: rest)
  | quote (rest : Bytes) : Opening ('"'.toUInt8 :: rest)
  | digit {d : UInt8} (rest : Bytes) : Bytes.isDigit d = true → Opening (d :: rest)
  | word {w rest : Bytes} : IsWord w → Kind.ofWord w ≠ .kwAnd → Kind.ofWord w ≠ .kwOr →
    Boundary rest → Opening (w ++ rest)

theorem operator?_binary (op : BinaryOp) (rest : Bytes) :
    operator? (utf8 op.symbol ++ (utf8 " " ++ rest)) = some (op.symbol, binary op) := by
  cases op <;> rfl

theorem operator?_logical (op : LogicalOp) (rest : Bytes) :
    operator? (utf8 op.symbol ++ (utf8 " " ++ rest)) = some (op.symbol, logical op) := by
  cases op <;> rfl

theorem operator?_assign (rest : Bytes) :
    operator? (utf8 "=" ++ (utf8 " " ++ rest)) = some ("=", assigned) := rfl

theorem operator?_eq_none (h : ∀ name ∈ operators.map Prod.fst, utf8 name ≠ symbol text) :
    operator? text = none := by
  refine List.find?_eq_none.2 fun entry hentry => ?_
  simpa using h entry.1 (List.mem_map_of_mem hentry)

theorem operator?_cons {b : UInt8} (hl : Bytes.isLetter b = false) (hb : b ≠ ' '.toUInt8)
    (h : ∀ name ∈ operators.map Prod.fst, (utf8 name).head? ≠ some b) :
    operator? (b :: rest) = none := by
  refine operator?_eq_none fun name hname heq => h name hname ?_
  rw [heq]
  simp [symbol, hl, hb]

theorem isDigit_operator : ∀ name ∈ operators.map Prod.fst,
    (utf8 name).head?.any Bytes.isDigit = false := by
  decide

theorem ofWord_operator : ∀ name ∈ operators.map Prod.fst,
    (utf8 name).head?.any Bytes.isLetter = true →
      Kind.ofWord (utf8 name) = .kwAnd ∨ Kind.ofWord (utf8 name) = .kwOr := by
  decide

theorem operator?_opening (h : Opening text) : operator? text = none := by
  cases h with
  | paren rest => exact operator?_cons rfl (by decide) (by decide)
  | quote rest => exact operator?_cons rfl (by decide) (by decide)
  | digit rest hd =>
    refine operator?_cons (Bytes.isLetter_of_isDigit hd) ?_ fun name hname heq => ?_
    · rintro rfl
      cases hd
    · have hnot := isDigit_operator name hname
      rw [heq, Option.any_some, hd] at hnot
      cases hnot
  | @word w rest hw hand hor hrest =>
    refine operator?_eq_none fun name hname heq => ?_
    have hword := word_append hw hrest
    obtain ⟨b, bs, rfl, hb, -⟩ := hw
    have hsymbol : symbol (b :: bs ++ rest) = b :: bs := by
      rw [symbol, hword]
      simp [hb]
    rw [hsymbol] at heq
    have hkind := ofWord_operator name hname (by rw [heq]; exact hb)
    rw [heq] at hkind
    exact hkind.elim hand hor

/-- A tree is not taken for a sign. -/
theorem head?_opening (h : Opening text) {b : UInt8} (hw : Scan.isWordByte b = false)
    (hp : b ≠ '('.toUInt8) (hq : b ≠ '"'.toUInt8) : text.head? ≠ some b := by
  intro heq
  cases h with
  | paren rest => exact hp (Option.some.inj heq).symm
  | quote rest => exact hq (Option.some.inj heq).symm
  | digit rest hd =>
    obtain rfl := Option.some.inj heq
    rw [isDigit_of_not_isWordByte hw] at hd
    cases hd
  | word hword _ _ _ =>
    obtain ⟨c, cs, rfl, hc, -⟩ := hword
    obtain rfl := Option.some.inj heq
    rw [isWordByte_of_isLetter hc] at hw
    cases hw

/-! ## Reading on -/

/-- From some amount of fuel on. -/
def Eventually (P : Nat → Prop) : Prop := ∃ n, ∀ k, n ≤ k → P k

namespace Eventually

variable {P Q : Nat → Prop}

theorem always (h : ∀ k, P k) : Eventually P := ⟨0, fun k _ => h k⟩

theorem and (hP : Eventually P) (hQ : Eventually Q) : Eventually fun k => P k ∧ Q k := by
  obtain ⟨n, hn⟩ := hP
  obtain ⟨m, hm⟩ := hQ
  exact ⟨max n m, fun k hk => ⟨hn k (by omega), hm k (by omega)⟩⟩

theorem mono (h : Eventually P) (hPQ : ∀ k, P k → Q k) : Eventually Q := by
  obtain ⟨n, hn⟩ := h
  exact ⟨n, fun k hk => hPQ k (hn k hk)⟩

theorem step (h : Eventually P) (hPQ : ∀ k, P k → Q (k + 1)) : Eventually Q := by
  obtain ⟨n, hn⟩ := h
  refine ⟨n + 1, fun k hk => ?_⟩
  cases k with
  | zero => cases hk
  | succ k => exact hPQ k (hn k (Nat.le_of_succ_le_succ hk))

end Eventually

/-- The text is read as a shape, and then something is left over. -/
def Reads (text : Bytes) (result : Shape × Bytes) : Prop :=
  Eventually fun fuel => read fuel text = result

/-- What comes of an operand and the text behind it. -/
def Extends (s : Shape) (text : Bytes) (result : Shape × Bytes) : Prop :=
  Eventually fun fuel => extend fuel s text = result

/-- The text is read as arguments. -/
def Lists (text : Bytes) (result : List Shape × Bytes) : Prop :=
  Eventually fun fuel => arguments fuel text = result

variable {s : Shape} {result : Shape × Bytes}

theorem Reads.unique {result' : Shape × Bytes} (h : Reads text result) (h' : Reads text result') :
    result = result' := by
  obtain ⟨n, hn⟩ := h.and h'
  exact (hn n (Nat.le_refl n)).1.symm.trans (hn n (Nat.le_refl n)).2

theorem reads_of_operand (h : Eventually fun fuel => operand (read fuel) text = (s, rest))
    (hx : Extends s rest result) : Reads text result := by
  refine (h.and hx).step fun k hk => ?_
  rw [read, hk.1]
  exact hk.2

/-- Only calls and properties extend an operand. -/
theorem extends_stop (hcall : rest.head? ≠ some '('.toUInt8)
    (hget : rest.head? ≠ some '.'.toUInt8) : Extends s rest (s, rest) := by
  refine .always fun k => ?_
  cases k with
  | zero => rfl
  | succ k =>
    cases rest with
    | nil => rfl
    | cons b rest =>
      have hcall : b ≠ '('.toUInt8 := fun hb => hcall (congrArg some hb)
      have hget : b ≠ '.'.toUInt8 := fun hb => hget (congrArg some hb)
      simp [extend, hcall, hget]

theorem extends_get (hw : IsWord w) (hrest : Boundary rest) (hx : Extends (get s w) rest result) :
    Extends s (utf8 "." ++ (w ++ rest)) result := by
  refine hx.step fun k hk => ?_
  have hget : extend (k + 1) s (utf8 "." ++ (w ++ rest)) =
    extend k (get s (word (w ++ rest)).1) (word (w ++ rest)).2 := rfl
  rw [hget, word_append hw hrest]
  exact hk

theorem extends_call {args : List Shape} (ha : Lists text (args, rest))
    (hx : Extends (call s args) rest result) : Extends s (utf8 "(" ++ text) result := by
  refine (ha.and hx).step fun k hk => ?_
  have hcall : extend (k + 1) s (utf8 "(" ++ text) =
    extend k (call s (arguments k text).1) (arguments k text).2 := rfl
  rw [hcall, hk.1]
  exact hk.2

/-! ## Printers -/

/-- What `print` puts in front of a text is read as `s`. -/
structure Prints (print : Bytes → Bytes) (s : Shape) : Prop where
  opening : ∀ {rest}, Boundary rest → Opening (print rest)
  reads : ∀ {rest result}, Boundary rest → Extends s rest result → Reads (print rest) result

/-- The shape ends in front of what does not extend it. -/
theorem Prints.before {print : Bytes → Bytes} (h : Prints print s) {b : UInt8}
    (hb : Scan.isWordByte b = false) (hcall : b ≠ '('.toUInt8) (hget : b ≠ '.'.toUInt8) :
    Reads (print (b :: rest)) (s, b :: rest) := by
  refine h.reads (boundary_cons rest hb hget) (extends_stop ?_ ?_)
  · exact fun heq => hcall (Option.some.inj heq)
  · exact fun heq => hget (Option.some.inj heq)

theorem operand_word (hw : IsWord w) (hrest : Boundary rest) (inner : Bytes → Shape × Bytes) :
    operand inner (w ++ rest) = named w rest := by
  have hword := word_append hw hrest
  obtain ⟨b, bs, rfl, hb, -⟩ := hw
  have hparen : b ≠ '('.toUInt8 := by rintro rfl; cases hb
  have hquote : b ≠ '"'.toUInt8 := by rintro rfl; cases hb
  rw [List.cons_append] at hword
  simp [operand, hparen, hquote, isDigit_of_isLetter hb, hword]

theorem prints_word (hw : IsWord w) (hand : Kind.ofWord w ≠ .kwAnd) (hor : Kind.ofWord w ≠ .kwOr)
    (hnamed : ∀ rest, named w rest = (s, rest)) : Prints (w ++ ·) s where
  opening hrest := .word hw hand hor hrest
  reads hrest hx := by
    refine reads_of_operand (.always fun k => ?_) hx
    rw [operand_word hw hrest, hnamed]

theorem prints_name (hw : IsName w) : Prints (w ++ ·) (var w) := by
  refine prints_word hw.word ?_ ?_ fun rest => ?_
  · rw [hw.kind]; decide
  · rw [hw.kind]; decide
  · rw [named, hw.kind]

theorem prints_super (hw : IsName w) :
    Prints (fun rest => utf8 "super." ++ (w ++ rest)) (super w) where
  opening {rest} hrest := by
    have hsuper : Opening (utf8 "super" ++ (utf8 "." ++ (w ++ rest))) :=
      .word (isWord_cons rfl rfl) (by decide) (by decide) (boundary_property hw.word rest)
    exact hsuper
  reads {rest result} hrest hx := by
    refine reads_of_operand (.always fun k => ?_) hx
    have hsuper : operand (read k) (utf8 "super." ++ (w ++ rest)) =
        (super (word (w ++ rest)).1, (word (w ++ rest)).2) :=
      operand_word (w := utf8 "super") (isWord_cons rfl rfl)
        (boundary_property hw.word rest) (read k)
    rw [hsuper, word_append hw.word hrest]

theorem prints_number (hn : Decimal.Numeral text) : Prints (text ++ ·) (number text) where
  opening _ := by
    obtain ⟨d, ds, rfl, hd⟩ := hn.exists_digit
    exact .digit _ hd
  reads {rest result} hrest hx := by
    refine reads_of_operand (.always fun k => ?_) hx
    have hnumeral := numeral_append hn hrest
    obtain ⟨d, ds, rfl, hd⟩ := hn.exists_digit
    have hparen : d ≠ '('.toUInt8 := by rintro rfl; cases hd
    have hquote : d ≠ '"'.toUInt8 := by rintro rfl; cases hd
    rw [List.cons_append] at hnumeral
    simp [operand, hparen, hquote, hd, hnumeral]

theorem prints_string (value : Bytes) : Prints (Quoted.encode value ++ ·) (string value) where
  opening _ := .quote _
  reads {rest result} _ hx := by
    refine reads_of_operand (.always fun k => ?_) hx
    have hstring : operand (read k) (Quoted.encode value ++ rest) =
        (string (Quoted.decode (Quoted.encode value ++ rest)).1,
          (Quoted.decode (Quoted.encode value ++ rest)).2) := rfl
    rw [hstring, Quoted.decode_encode]

theorem prints_unary (op : UnaryOp) {print : Bytes → Bytes} (h : Prints print s) :
    Prints (fun rest => utf8 "(" ++ (utf8 op.symbol ++ print (utf8 ")" ++ rest))) (unary op s) where
  opening _ := .paren _
  reads {rest result} _ hx := by
    have hinner : Reads (print (utf8 ")" ++ rest)) (s, utf8 ")" ++ rest) :=
      h.before rfl (by decide) (by decide)
    refine reads_of_operand (hinner.mono fun k hk => ?_) hx
    have hunary : operand (read k) (utf8 "(" ++ (utf8 op.symbol ++ print (utf8 ")" ++ rest))) =
        (unary op (read k (print (utf8 ")" ++ rest))).1,
          (read k (print (utf8 ")" ++ rest))).2.tail) := by
      cases op <;> rfl
    rw [hunary, hk]
    rfl

/-- Behind a parenthesis that is not followed by a sign there is an operand. -/
theorem parenthesized_opening (h : Opening text) (inner : Bytes → Shape × Bytes) :
    parenthesized inner text = infixed inner (inner text).1 (inner text).2.tail := by
  have hneg : text.head? ≠ some '-'.toUInt8 := head?_opening h rfl (by decide) (by decide)
  have hnot : text.head? ≠ some '!'.toUInt8 := head?_opening h rfl (by decide) (by decide)
  simp only [parenthesized, beq_iff_eq, hneg, hnot, if_false]

theorem infixed_operator {inner : Bytes → Shape × Bytes} {symbol : String}
    {node : Shape → Shape → Shape} {l r : Shape}
    (hop : operator? (utf8 symbol ++ (utf8 " " ++ text)) = some (symbol, node))
    (hr : inner text = (r, utf8 ")" ++ rest)) :
    infixed inner l (utf8 symbol ++ (utf8 " " ++ text)) = (node l r, rest) := by
  have hdrop : (utf8 symbol ++ (utf8 " " ++ text)).drop ((utf8 symbol).length + 1) = text := by
    rw [← List.drop_drop, List.drop_left]
    rfl
  simp only [infixed, hop, hdrop, hr]
  rfl

theorem infixed_grouping {inner : Bytes → Shape × Bytes} {l : Shape} (hop : operator? text = none)
    (hs : inner text = (s, utf8 ")" ++ rest)) : infixed inner l text = (grouping s, rest) := by
  simp only [infixed, hop, hs]
  rfl

theorem prints_infix {left right : Bytes → Bytes} {symbol : String} {node : Shape → Shape → Shape}
    {l r : Shape} (hl : Prints left l) (hr : Prints right r)
    (hop : ∀ rest, operator? (utf8 symbol ++ (utf8 " " ++ rest)) = some (symbol, node)) :
    Prints (infixText left symbol right) (node l r) where
  opening _ := .paren _
  reads {rest result} _ hx := by
    have hleft : Reads (left (utf8 " " ++ (utf8 symbol ++ (utf8 " " ++ right (utf8 ")" ++ rest)))))
        (l, utf8 " " ++ (utf8 symbol ++ (utf8 " " ++ right (utf8 ")" ++ rest)))) :=
      hl.before rfl (by decide) (by decide)
    have hright : Reads (right (utf8 ")" ++ rest)) (r, utf8 ")" ++ rest) :=
      hr.before rfl (by decide) (by decide)
    refine reads_of_operand ((hleft.and hright).mono fun k hk => ?_) hx
    have hparen : operand (read k) (infixText left symbol right rest) = parenthesized (read k)
      (left (utf8 " " ++ (utf8 symbol ++ (utf8 " " ++ right (utf8 ")" ++ rest))))) := rfl
    rw [hparen, parenthesized_opening (hl.opening (boundary_blank _)), hk.1]
    exact infixed_operator (hop _) hk.2

/-- The word in front of what is grouped is read as an operand, but no operator follows it. -/
theorem prints_grouping {print : Bytes → Bytes} (h : Prints print s) :
    Prints (fun rest => utf8 "(group " ++ print (utf8 ")" ++ rest)) (grouping s) where
  opening _ := .paren _
  reads {rest result} _ hx := by
    have hgroup : Prints (utf8 "group" ++ ·) (var (utf8 "group")) :=
      prints_name ⟨isWord_cons rfl rfl, rfl⟩
    have hleft : Reads (utf8 "group" ++ (utf8 " " ++ print (utf8 ")" ++ rest)))
        (var (utf8 "group"), utf8 " " ++ print (utf8 ")" ++ rest)) :=
      hgroup.before rfl (by decide) (by decide)
    have hinner : Reads (print (utf8 ")" ++ rest)) (s, utf8 ")" ++ rest) :=
      h.before rfl (by decide) (by decide)
    have hop : operator? (print (utf8 ")" ++ rest)) = none :=
      operator?_opening (h.opening (boundary_closing rest))
    refine reads_of_operand ((hleft.and hinner).mono fun k hk => ?_) hx
    have hparen : operand (read k) (utf8 "(group " ++ print (utf8 ")" ++ rest)) =
      parenthesized (read k) (utf8 "group" ++ (utf8 " " ++ print (utf8 ")" ++ rest))) := rfl
    rw [hparen, parenthesized_opening (hgroup.opening (boundary_blank _)), hk.1]
    exact infixed_grouping hop hk.2

theorem prints_get {print : Bytes → Bytes} (h : Prints print s) (hw : IsName w) :
    Prints (fun rest => print (utf8 "." ++ (w ++ rest))) (get s w) where
  opening {rest} _ := h.opening (boundary_property hw.word rest)
  reads {rest result} hrest hx := by
    have hget : Extends s (utf8 "." ++ (w ++ rest)) result := extends_get hw.word hrest hx
    exact h.reads (boundary_property hw.word rest) hget

theorem prints_call {print list : Bytes → Bytes} {args : List Shape} (h : Prints print s)
    (ha : ∀ rest, Lists (list (utf8 ")" ++ rest)) (args, rest)) :
    Prints (fun rest => print (utf8 "(" ++ list (utf8 ")" ++ rest))) (call s args) where
  opening _ := h.opening (boundary_cons _ rfl (by decide))
  reads {rest result} _ hx :=
    h.reads (boundary_cons _ rfl (by decide)) (extends_call (ha rest) hx)

theorem lists_nil (rest : Bytes) : Lists (utf8 ")" ++ rest) ([], rest) :=
  .step (P := fun _ => True) (.always fun _ => trivial) fun _ _ => rfl

theorem lists_cons {after : Bytes} {others : List Shape} (hopen : Opening text)
    (h : Reads text (s, after))
    (ho : Lists (if after.head? == some ','.toUInt8 then after.drop 2 else after) (others, rest)) :
    Lists text (s :: others, rest) := by
  have hclosing : text.head? ≠ some ')'.toUInt8 := head?_opening hopen rfl (by decide) (by decide)
  refine (h.and ho).step fun k hk => ?_
  simp only [arguments, beq_iff_eq, hclosing, if_false, hk.1]
  simp only [beq_iff_eq] at hk
  rw [hk.2]

theorem lists_last {print : Bytes → Bytes} (h : Prints print s) (rest : Bytes) :
    Lists (print (utf8 ")" ++ rest)) ([s], rest) :=
  lists_cons (h.opening (boundary_closing rest)) (h.before rfl (by decide) (by decide))
    (lists_nil rest)

theorem lists_more {print : Bytes → Bytes} {others : List Shape} (h : Prints print s)
    (ho : Lists text (others, rest)) : Lists (print (utf8 ", " ++ text)) (s :: others, rest) :=
  lists_cons (h.opening (boundary_cons (utf8 " " ++ text) rfl (by decide)))
    (h.before rfl (by decide) (by decide)) ho

end Shape

/-! ## Trees -/

open Shape

/-- A number is written in digits. -/
def Literal.Plain : Literal → Prop
  | number x => Decimal.Numeral (numberLayout.write x)
  | _ => True

namespace Expr

/-- The names are not reserved, and the numbers are written in digits. -/
inductive Plain : Expr → Prop
  | literal {t : Token} {v : Literal} : v.Plain → Plain (.literal t v)
  | grouping {t : Token} {e : Expr} : Plain e → Plain (.grouping t e)
  | unary {op : UnaryOp} {t : Token} {e : Expr} : Plain e → Plain (.unary op t e)
  | binary {op : BinaryOp} {t : Token} {l r : Expr} : Plain l → Plain r →
    Plain (.binary op t l r)
  | logical {op : LogicalOp} {t : Token} {l r : Expr} : Plain l → Plain r →
    Plain (.logical op t l r)
  | var {ref : Ref} : IsName ref.name.lexeme → Plain (.var ref)
  | assign {ref : Ref} {v : Expr} : IsName ref.name.lexeme → Plain v → Plain (.assign ref v)
  | call {t : Token} {f : Expr} {args : List Expr} : Plain f → (∀ a ∈ args, Plain a) →
    Plain (.call t f args)
  | get {o : Expr} {name : Token} : Plain o → IsName name.lexeme → Plain (.get o name)
  | set {o v : Expr} {name : Token} : Plain o → IsName name.lexeme → Plain v →
    Plain (.set o name v)
  | this {ref : Ref} : Plain (.this ref)
  | super {ref : Ref} {method : Token} : IsName method.lexeme → Plain (.super ref method)

theorem lists_writeList {args : List Expr} (h : ∀ a ∈ args, Prints a.write a.shape)
    (rest : Bytes) : Lists (writeList args (utf8 ")" ++ rest)) (shapes args, rest) := by
  induction args with
  | nil => exact lists_nil rest
  | cons a args ih =>
    obtain ⟨ha, hargs⟩ := List.forall_mem_cons.1 h
    cases args with
    | nil => exact lists_last ha rest
    | cons b args => exact lists_more ha (ih hargs)

theorem prints_literal {v : Literal} (h : v.Plain) : Prints (v.toBytes ++ ·) v.shape := by
  cases v with
  | nil => exact prints_word (isWord_cons rfl rfl) (by decide) (by decide) fun _ => rfl
  | bool b =>
    cases b with
    | false => exact prints_word (isWord_cons rfl rfl) (by decide) (by decide) fun _ => rfl
    | true => exact prints_word (isWord_cons rfl rfl) (by decide) (by decide) fun _ => rfl
  | number x => exact prints_number h
  | string s => exact prints_string s

/-- A plain tree is read from its printed form. -/
theorem prints_write {e : Expr} (h : e.Plain) : Prints e.write e.shape := by
  induction h with
  | literal hv => exact prints_literal hv
  | grouping _ ih => exact prints_grouping ih
  | unary _ ih => exact prints_unary _ ih
  | binary _ _ ihl ihr => exact prints_infix ihl ihr (operator?_binary _)
  | logical _ _ ihl ihr => exact prints_infix ihl ihr (operator?_logical _)
  | var hname => exact prints_name hname
  | assign hname _ ih => exact prints_infix (prints_name hname) ih operator?_assign
  | call _ _ ihf iha => exact prints_call ihf (lists_writeList iha)
  | get _ hname ih => exact prints_get ih hname
  | set _ hname _ iho ihv => exact prints_infix (prints_get iho hname) ihv operator?_assign
  | this => exact prints_word (isWord_cons rfl rfl) (by decide) (by decide) fun _ => rfl
  | super hname => exact prints_super hname

/-- **The printed form shows the shape.** -/
theorem shape_eq_of_toBytes_eq {e e' : Expr} (h : e.Plain) (h' : e'.Plain)
    (heq : e.toBytes = e'.toBytes) : e.shape = e'.shape := by
  have hread := (prints_write h).reads boundary_nil (extends_stop nofun nofun)
  have hread' := (prints_write h').reads boundary_nil (extends_stop nofun nofun)
  rw [← toBytes, heq] at hread
  exact congrArg Prod.fst (hread.unique hread')

end Expr

end Lox
