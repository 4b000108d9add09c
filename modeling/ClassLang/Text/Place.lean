/-!
Places in a text. Offsets count the bytes of the UTF-8 encoding, lines and
columns count from one, and a column counts characters. A newline ends its
line; nothing else does.
-/

namespace ClassLang.Text

/-- The number of bytes that the characters take up in UTF-8. -/
def byteLength : List Char → Nat
  | [] => 0
  | c :: rest => c.utf8Size + byteLength rest

@[simp] theorem byteLength_nil : byteLength [] = 0 := rfl

@[simp] theorem byteLength_cons (c : Char) (rest : List Char) :
    byteLength (c :: rest) = c.utf8Size + byteLength rest := rfl

@[simp] theorem byteLength_append (first second : List Char) :
    byteLength (first ++ second) = byteLength first + byteLength second := by
  induction first with
  | nil => simp
  | cons c rest ih => simp [ih, Nat.add_assoc]

theorem byteLength_ofList (text : List Char) :
    (String.ofList text).utf8ByteSize = byteLength text := by
  induction text with
  | nil => rfl
  | cons c rest ih =>
      rw [String.ofList_cons, String.utf8ByteSize_append, String.utf8ByteSize_singleton, ih]
      rfl

/-- The characters that start before byte `offset`. An offset inside a
character counts that character in, one past the end counts them all. -/
def charsBefore (offset : Nat) : List Char → List Char
  | [] => []
  | c :: rest => if offset = 0 then [] else c :: charsBefore (offset - c.utf8Size) rest

theorem charsBefore_prefix (offset : Nat) (text : List Char) :
    charsBefore offset text <+: text := by
  induction text generalizing offset with
  | nil => exact List.prefix_rfl
  | cons c rest ih =>
      unfold charsBefore
      split
      · exact List.nil_prefix
      · exact List.cons_prefix_cons.mpr ⟨rfl, ih _⟩

/-- At the end of a first part, what starts before it is that part. -/
theorem charsBefore_append (first second : List Char) :
    charsBefore (byteLength first) (first ++ second) = first := by
  induction first with
  | nil =>
      cases second with
      | nil => rfl
      | cons c rest => simp [charsBefore]
  | cons c rest ih =>
      have hpos := c.utf8Size_pos
      rw [byteLength_cons, List.cons_append, charsBefore, if_neg (by omega)]
      rw [Nat.add_sub_cancel_left, ih]

structure Location where
  line : Nat
  column : Nat
deriving DecidableEq

namespace Location

def start : Location := ⟨1, 1⟩

/-- Where the next character stands, once `c` has been passed. -/
def step (location : Location) (c : Char) : Location :=
  if c = '\n' then ⟨location.line + 1, 1⟩ else ⟨location.line, location.column + 1⟩

def ofOffset (text : List Char) (offset : Nat) : Location :=
  (charsBefore offset text).foldl step start

end Location

/-- The lines of a text, without what ends them. A carriage return right
before a newline belongs to the end of the line, one at the very end of the
text does not. After a final newline comes one more line, which is empty. -/
def lines : List Char → List (List Char)
  | [] => [[]]
  | '\n' :: rest => [] :: lines rest
  | '\r' :: '\n' :: rest => [] :: lines rest
  | c :: rest => (lines rest).modifyHead (c :: ·)

/-- The text of a line, which is counted from one; past the last line there
is none. -/
def lineText (text : List Char) (line : Nat) : List Char :=
  (lines text)[line - 1]?.getD []

end ClassLang.Text
