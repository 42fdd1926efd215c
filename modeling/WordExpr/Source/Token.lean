import WordExpr.Error

/-!
# Tokens

A text is cut into `Token`s: a maximal run of term characters is one token, an operator or a
bracket is a token of its own, whitespace separates tokens and is none.

* `Cursor.next`   the next token, or the first character outside the alphabet, with the cursor
                  behind it; after such a character nothing is left to read;
* `Cursor.items`  everything that `next` gives until nothing is left;
* `tokenize`      the items of a text.

A token may also be made by hand. Whoever reads one goes by its kind and then by its first
character.
-/

namespace WordExpr

inductive TokenKind where
  | term
  | operator
  | bracket
  | whitespace
deriving DecidableEq, Repr

def CharClass.kind : CharClass → TokenKind
  | .term => .term
  | .binaryOperator | .unaryOperator => .operator
  | .opening | .closing => .bracket
  | .whitespace => .whitespace

structure Token where
  kind : TokenKind
  text : String
  /-- of the first byte -/
  offset : Nat
deriving DecidableEq, Repr

/-- the character 0 where the text is empty -/
def Token.firstChar (t : Token) : Char := t.text.toList.headD '\x00'

/-- just past the last byte, in 64 bits -/
def Token.stop (t : Token) : Nat := (t.offset + t.text.utf8ByteSize) % UInt64.size

/-! ## cursors -/

structure Cursor where
  rest : List Char
  offset : Nat := 0

def byteLength (cs : List Char) : Nat := (String.ofList cs).utf8ByteSize

abbrev Item := Except ParseError Token

namespace Cursor

def nextFrom (offset : Nat) : List Char → Option (Item × Cursor)
  | [] => none
  | c :: cs =>
    match CharClass.of? c with
    | none => some (.error (.unexpected c offset), ⟨[], offset + byteLength (c :: cs)⟩)
    | some .whitespace => nextFrom (offset + c.utf8Size) cs
    | some .term =>
      let word := c :: cs.takeWhile isTermChar
      some (.ok ⟨.term, String.ofList word, offset⟩,
        ⟨cs.dropWhile isTermChar, offset + byteLength word⟩)
    | some k => some (.ok ⟨k.kind, String.singleton c, offset⟩, ⟨cs, offset + c.utf8Size⟩)

def next (p : Cursor) : Option (Item × Cursor) := nextFrom p.offset p.rest

theorem nextFrom_lt : ∀ {cs : List Char} {offset : Nat} {item : Item} {q : Cursor},
    nextFrom offset cs = some (item, q) → q.rest.length < cs.length
  | [], _, _, _, h => by simp [nextFrom] at h
  | c :: cs, offset, item, q, h => by
    have hd : (cs.dropWhile isTermChar).length ≤ cs.length :=
      (List.dropWhile_suffix isTermChar).length_le
    unfold nextFrom at h
    split at h
    · simp only [Option.some.injEq, Prod.mk.injEq] at h
      simp [← h.2]
    · have := nextFrom_lt h
      simp only [List.length_cons]
      omega
    · simp only [Option.some.injEq, Prod.mk.injEq] at h
      simp only [← h.2, List.length_cons]
      omega
    · simp only [Option.some.injEq, Prod.mk.injEq] at h
      simp [← h.2]

/-- Every item takes at least one character off the text. -/
theorem next_lt {p q : Cursor} {item : Item} (h : p.next = some (item, q)) :
    q.rest.length < p.rest.length := nextFrom_lt h

def items (p : Cursor) : List Item :=
  match _h : p.next with
  | none => []
  | some (item, q) => item :: q.items
termination_by p.rest.length
decreasing_by exact next_lt _h

end Cursor

def tokenize (text : String) : List Item := Cursor.items { rest := text.toList }

end WordExpr
