import Mathlib.Data.List.Chain
import ClassLang.Proofs.FirstPiece

/-!
Tokens that are written down and scanned again. Each is written by its
spelling, with any white space between two of them; where nothing stands
between, neither may run on into the other. Scanning then cuts at the very
places where the spellings were joined, so the tables of spellings and those
that words and marks are looked up in agree.
-/

namespace ClassLang

open LexicalRule Text

namespace TokenKind

/-- Whether the token is made of letters and digits. -/
def isWord : TokenKind → Bool
  | .identifier _ | .keyword _ | .typeName _ | .literal _ => true
  | .separator _ | .operator _ => false

/-- Whether the spelling stands for this very token: a name is a word that is
not reserved, and an integer has no sign. -/
def IsSpellable : TokenKind → Prop
  | .identifier name =>
      (∃ first rest, name.toList = first :: rest ∧ first.isAlpha = true ∧
        ∀ c ∈ rest, c.isAlphanum = true) ∧
      ∀ kind : TokenKind, kind.isReservedWord = true → kind.spelling ≠ name
  | .literal (.int value) => 0 ≤ value.toInt
  | _ => True

/-- Whether an `=` behind the token would make another token of it. -/
def TakesEquals (kind : TokenKind) : Prop :=
  kind.spelling = "<" ∨ kind.spelling = ">" ∨ kind.spelling = "="

instance (kind : TokenKind) : Decidable kind.TakesEquals :=
  inferInstanceAs (Decidable (kind.spelling = "<" ∨ kind.spelling = ">" ∨ kind.spelling = "="))

/-- Whether the second token may come right behind the first. -/
def MayTouch (left right : TokenKind) : Prop :=
  ¬ (left.isWord = true ∧ right.isWord = true) ∧
    ¬ (left.TakesEquals ∧ right.spelling.toList.head? = some '=')

instance (left right : TokenKind) : Decidable (left.MayTouch right) :=
  inferInstanceAs (Decidable
    (¬ (left.isWord = true ∧ right.isWord = true) ∧
      ¬ (left.TakesEquals ∧ right.spelling.toList.head? = some '=')))

/-- What comes behind the token does not go on with it. -/
def EndsBefore (kind : TokenKind) (after : List Char) : Prop :=
  ∀ c, after.head? = some c →
    (kind.isWord = true → isWordChar c = false) ∧ (kind.TakesEquals → c ≠ '=')

end TokenKind

/-- A token to be written and the white space in front of it. -/
structure Spaced where
  gap : String
  kind : TokenKind

namespace Spaced

/-- The tokens written one after the other, with `last` behind them. -/
def source (last : String) : List Spaced → String
  | [] => last
  | item :: rest => item.gap ++ item.kind.spelling ++ source last rest

/-- The tokens at the bytes where their spellings begin, if the first gap
begins at `offset`. -/
def tokens (offset : Nat) : List Spaced → List Token
  | [] => []
  | item :: rest =>
      let start := offset + item.gap.utf8ByteSize
      ⟨item.kind, start⟩ :: tokens (start + item.kind.spelling.utf8ByteSize) rest

end Spaced

/-- The gaps are white space, and a gap is left out only between tokens that
may touch. -/
structure IsSpacing (items : List Spaced) (last : String) : Prop where
  spellable : ∀ item ∈ items, item.kind.IsSpellable
  blank : ∀ item ∈ items, ∀ c ∈ item.gap.toList, isBlank c = true
  last_blank : ∀ c ∈ last.toList, isBlank c = true
  touch : items.IsChain fun left right => right.gap = "" → left.kind.MayTouch right.kind

namespace TokenKind

theorem toList_integer_spelling {value : Int64} (h : 0 ≤ value.toInt) :
    ∃ n : Nat, value.toInt = n ∧
      (literal (.int value)).spelling.toList = Nat.toDigits 10 n := by
  obtain ⟨n, hn⟩ := Int.eq_ofNat_of_zero_le h
  refine ⟨n, hn, ?_⟩
  change value.toInt.repr.toList = _
  rw [hn]
  change n.repr.toList = _
  rw [Nat.repr_eq_ofList_toDigits, String.toList_ofList]

theorem toList_separator_spelling (mark : Separator) :
    (separator mark).spelling.toList = [mark.char] := by
  simp [spelling, Separator.spelling]

theorem isAlphanum_of_isReservedWord {kind : TokenKind} (h : kind.isReservedWord = true) :
    ∀ c ∈ kind.spelling.toList, c.isAlphanum = true := by
  have hall : reservedWords.all (·.spelling.toList.all Char.isAlphanum) = true := rfl
  have hchars := List.all_eq_true.mp hall kind (mem_reservedWords h)
  exact fun c hc => List.all_eq_true.mp hchars c hc

/-- What a word is spelled with. -/
theorem isAlphanum_of_isWord {kind : TokenKind} (hkind : kind.IsSpellable)
    (hword : kind.isWord = true) : ∀ c ∈ kind.spelling.toList, c.isAlphanum = true := by
  cases kind with
  | keyword word => exact isAlphanum_of_isReservedWord rfl
  | typeName name => exact isAlphanum_of_isReservedWord rfl
  | identifier name =>
      obtain ⟨⟨first, rest, hname, hfirst, hrest⟩, _⟩ := hkind
      intro c hc
      change c ∈ name.toList at hc
      rw [hname] at hc
      rcases List.mem_cons.mp hc with rfl | hc
      · exact isAlphanum_of_isAlpha hfirst
      · exact hrest c hc
  | literal value =>
      cases value with
      | bool value => exact isAlphanum_of_isReservedWord rfl
      | int value =>
          obtain ⟨n, _, hspelling⟩ := toList_integer_spelling hkind
          rw [hspelling]
          intro c hc
          exact isAlphanum_of_isDigit (Nat.isDigit_of_mem_toDigits (by decide) (by decide) hc)
  | separator mark => cases hword
  | operator symbol => cases hword

/-- Every spelling begins with a character that is not white space, and a word
is known by it. -/
theorem exists_cons_spelling {kind : TokenKind} (h : kind.IsSpellable) :
    ∃ first rest, kind.spelling.toList = first :: rest ∧ isBlank first = false ∧
      isWordChar first = kind.isWord := by
  cases hword : kind.isWord with
  | true =>
      have hne : kind.spelling.toList ≠ [] := by
        cases kind with
        | keyword word => cases word <;> decide
        | typeName name => cases name <;> decide
        | identifier name =>
            obtain ⟨⟨first, rest, hname, _⟩, _⟩ := h
            exact hname ▸ List.cons_ne_nil first rest
        | literal value =>
            cases value with
            | bool value => cases value <;> decide
            | int value =>
                obtain ⟨n, _, hspelling⟩ := toList_integer_spelling h
                exact hspelling ▸ Nat.toDigits_ne_nil
        | separator mark => cases hword
        | operator symbol => cases hword
      obtain ⟨first, rest, hcons⟩ := List.exists_cons_of_ne_nil hne
      have hfirst := isAlphanum_of_isWord h hword first (hcons ▸ List.mem_cons_self)
      exact ⟨first, rest, hcons, isBlank_eq_false_of_isAlphanum hfirst,
        isWordChar_of_isAlphanum hfirst⟩
  | false =>
      cases kind with
      | separator mark =>
          exact ⟨mark.char, [], toList_separator_spelling mark, (separator_char mark).1,
            isWordChar_separator mark⟩
      | operator symbol =>
          obtain ⟨first, rest, hcons⟩ :=
            List.exists_cons_of_ne_nil (operator_spelling_ne_nil symbol)
          have hfirst : first ∈ symbol.spelling.toList := hcons ▸ List.mem_cons_self
          exact ⟨first, rest, hcons, (operator_spelling_chars symbol first hfirst).1,
            isWordChar_operator symbol first hfirst⟩
      | keyword _ | typeName _ | identifier _ | literal _ => cases hword

end TokenKind

namespace Piece

variable {after : List Char}

theorem word_spelling {kind : TokenKind} (hkind : kind.IsSpellable) (hword : kind.isWord = true)
    (hafter : kind.EndsBefore after) :
    word (kind.spelling.toList ++ after) = kind.spelling.toList := by
  apply takeWhile_run_append
  · intro c hc
    exact isWordChar_of_isAlphanum (TokenKind.isAlphanum_of_isWord hkind hword c hc)
  · intro c hc
    exact (hafter c hc).1 hword

theorem ofRules?_reserved {kind : TokenKind} (hkind : kind.isReservedWord = true)
    (hword : word (kind.spelling.toList ++ after) = kind.spelling.toList) :
    ofRules? (kind.spelling.toList ++ after) = some ⟨kind.spelling.toList, .token kind⟩ := by
  have hreserved := reserved_of_spelling hkind hword
  obtain ⟨first, rest, hcons, halpha⟩ := TokenKind.exists_isAlpha_of_isReservedWord hkind
  rw [ofRules?_eq, hreserved, illegalIdentifier?_eq_none, hcons, List.cons_append, blank?_eq_none]
  · rfl
  · exact isBlank_eq_false_of_isAlphanum (isAlphanum_of_isAlpha halpha)
  · intro c more hfirst hdigit
    rw [hword, hcons, List.cons.injEq] at hfirst
    rw [← hfirst.1, isDigit_of_isAlpha halpha] at hdigit
    cases hdigit

/-- A word that is neither reserved nor begun with a digit is a name. -/
theorem ofRules?_identifier {name : String} (hname : (TokenKind.identifier name).IsSpellable)
    (hafter : (TokenKind.identifier name).EndsBefore after) :
    ofRules? (name.toList ++ after) = some ⟨name.toList, .token (.identifier name)⟩ := by
  have hword : word (name.toList ++ after) = name.toList := word_spelling hname rfl hafter
  obtain ⟨⟨first, rest, hcons, hfirst, hrest⟩, hreserved⟩ := hname
  have hrun : (rest ++ after).takeWhile Char.isAlphanum = rest := by
    apply takeWhile_run_append hrest
    intro c hc
    exact isAlphanum_of_not_isWordChar ((hafter c hc).1 rfl)
  rw [hcons, List.cons_append] at hword ⊢
  rw [ofRules?_letter hfirst]
  · simp only [identifier?, hfirst, hrun, if_true, ← hcons, String.ofList_toList]
  · rwa [hword, ← hcons, String.ofList_toList]

/-- Leading zeros do not matter to the value of an integer. -/
theorem ofRules?_decimal {digits : List Char} {value : Int64} (hne : digits ≠ [])
    (hdigits : ∀ c ∈ digits, c.isDigit = true) (hvalue : value.toInt = decimalValue digits)
    (hafter : (TokenKind.literal (.int value)).EndsBefore after) :
    ofRules? (digits ++ after) = some ⟨digits, .token (.literal (.int value))⟩ := by
  have hword : word (digits ++ after) = digits := by
    apply takeWhile_run_append
    · exact fun c hc => isWordChar_of_isAlphanum (isAlphanum_of_isDigit (hdigits c hc))
    · exact fun c hc => (hafter c hc).1 rfl
  have hbound : decimalValue digits ≤ maxInteger := by
    have hless := value.toInt_lt
    unfold maxInteger
    omega
  have hback : Int64.ofNat (decimalValue digits) = value := by
    rw [← Int64.ofInt_toInt value, hvalue]
    rfl
  apply ofRules?_digits hword hne hdigits
  rw [integer?_of_digits hword hne hdigits hbound, hback]

theorem ofRules?_integer {value : Int64} (hvalue : 0 ≤ value.toInt)
    (hafter : (TokenKind.literal (.int value)).EndsBefore after) :
    let digits := (TokenKind.literal (.int value)).spelling.toList
    ofRules? (digits ++ after) = some ⟨digits, .token (.literal (.int value))⟩ := by
  intro digits
  obtain ⟨n, hn, hdigits⟩ := TokenKind.toList_integer_spelling hvalue
  replace hdigits : digits = Nat.toDigits 10 n := hdigits
  apply ofRules?_decimal (hdigits ▸ Nat.toDigits_ne_nil) _ _ hafter
  · intro c hc
    exact Nat.isDigit_of_mem_toDigits (by decide) (by decide) (hdigits ▸ hc)
  · rw [hn, hdigits, decimalValue, Nat.ofDigitChars_ten_toDigits]

theorem ofRules?_operator {symbol : Operator}
    (hafter : (TokenKind.operator symbol).EndsBefore after) :
    ofRules? (symbol.spelling.toList ++ after) =
      some ⟨symbol.spelling.toList, .token (.operator symbol)⟩ := by
  have hfound : operator? (symbol.spelling.toList ++ after) =
      some ⟨symbol.spelling.toList, .token (.operator symbol)⟩ := by
    cases symbol with
    | and | or | lessEqual | greaterEqual | equal => rfl
    | less | greater =>
        cases after with
        | nil => rfl
        | cons c rest =>
            have hc : c ≠ '=' := (hafter c rfl).2 (by decide)
            have hc' : ('=' == c) = false := by simpa using hc.symm
            simp [operator?, Operator.all, Operator.spelling, List.find?, List.isPrefixOf, hc']
  obtain ⟨first, rest, hcons⟩ := List.exists_cons_of_ne_nil (operator_spelling_ne_nil symbol)
  have hfirst : first ∈ symbol.spelling.toList := hcons ▸ List.mem_cons_self
  have hrules := @ofRules?_mark first (rest ++ after)
    ⟨(operator_spelling_chars symbol first hfirst).1, isWordChar_operator symbol first hfirst⟩
  rw [← List.cons_append, ← hcons, hfound] at hrules
  rw [hrules]
  rfl

theorem ofRules?_separator {mark : Separator}
    (hafter : (TokenKind.separator mark).EndsBefore after) :
    ofRules? (mark.char :: after) = some ⟨[mark.char], .token (.separator mark)⟩ := by
  have hoperator : operator? (mark.char :: after) = none := by
    apply operator?_eq_none
    intro symbol hstart
    obtain ⟨first, rest, hcons⟩ := List.exists_cons_of_ne_nil (operator_spelling_ne_nil symbol)
    rw [hcons, List.cons_prefix_cons] at hstart
    obtain ⟨rfl, rfl⟩ := operator_head_separator (by rw [hcons, hstart.1, List.head?_cons])
    have hspelling : Operator.equal.spelling.toList = ['=', '='] := rfl
    rw [hspelling, List.cons.injEq] at hcons
    obtain ⟨_, rfl⟩ := hcons
    obtain ⟨more, rfl⟩ := hstart.2
    exact (hafter '=' rfl).2 (.inr (.inr rfl)) rfl
  rw [ofRules?_mark ⟨(separator_char mark).1, isWordChar_separator mark⟩, hoperator, separator?,
    Separator.ofChar?_char]
  rfl

/-- The first piece of a text that begins with a spelling is the token. -/
theorem ofRules?_spelling {kind : TokenKind} (hkind : kind.IsSpellable)
    (hafter : kind.EndsBefore after) :
    ofRules? (kind.spelling.toList ++ after) = some ⟨kind.spelling.toList, .token kind⟩ := by
  cases kind with
  | identifier name => exact ofRules?_identifier hkind hafter
  | keyword word => exact ofRules?_reserved rfl (word_spelling hkind rfl hafter)
  | typeName name => exact ofRules?_reserved rfl (word_spelling hkind rfl hafter)
  | literal value =>
      cases value with
      | bool value => exact ofRules?_reserved rfl (word_spelling hkind rfl hafter)
      | int value => exact ofRules?_integer hkind hafter
  | operator symbol => exact ofRules?_operator hafter
  | separator mark =>
      rw [TokenKind.toList_separator_spelling]
      exact ofRules?_separator hafter

end Piece

/-- What a scan finds in a text that begins at `offset`. -/
def Scan.ofText (offset : Nat) (text : List Char) : Scan :=
  .ofPlaced (PlacedPiece.layOut offset (Piece.all text))

namespace Scan

variable {offset : Nat} {after : List Char}

theorem ofText_gap {gap : List Char} (hgap : ∀ c ∈ gap, isBlank c = true)
    (hafter : ∀ c, after.head? = some c → isBlank c = false) :
    ofText offset (gap ++ after) = ofText (offset + byteLength gap) after := by
  cases gap with
  | nil => simp
  | cons c rest =>
      have hblank : Piece.ofRules? (c :: rest ++ after) = some ⟨c :: rest, .blank⟩ := by
        have hrun : (c :: rest ++ after).takeWhile isBlank = c :: rest :=
          takeWhile_run_append hgap hafter
        rw [Piece.ofRules?_eq, blank?, hrun]
        rfl
      unfold ofText
      rw [Piece.all_append hblank (List.cons_ne_nil c rest)]
      rfl

theorem ofText_spelling {kind : TokenKind} (hkind : kind.IsSpellable)
    (hafter : kind.EndsBefore after) :
    ofText offset (kind.spelling.toList ++ after) =
      let others := ofText (offset + kind.spelling.utf8ByteSize) after
      ⟨⟨kind, offset⟩ :: others.tokens, others.diagnostics⟩ := by
  obtain ⟨first, rest, hcons, _⟩ := TokenKind.exists_cons_spelling hkind
  have hpiece := Piece.ofRules?_spelling hkind hafter
  unfold ofText
  rw [Piece.all_append hpiece (hcons ▸ List.cons_ne_nil first rest),
    ← String.ofList_toList (s := kind.spelling), byteLength_ofList, String.ofList_toList]
  rfl

end Scan

namespace IsSpacing

variable {item : Spaced} {rest : List Spaced} {last : String}

theorem tail (h : IsSpacing (item :: rest) last) : IsSpacing rest last where
  spellable other hother := h.spellable other (List.mem_cons_of_mem item hother)
  blank other hother := h.blank other (List.mem_cons_of_mem item hother)
  last_blank := h.last_blank
  touch := h.touch.tail

theorem isBlank_head (h : IsSpacing (item :: rest) last) {c : Char} :
    (item.kind.spelling.toList ++ (Spaced.source last rest).toList).head? = some c →
      isBlank c = false := by
  obtain ⟨first, more, hcons, hblank, _⟩ :=
    TokenKind.exists_cons_spelling (h.spellable item List.mem_cons_self)
  rw [hcons]
  rintro ⟨⟩
  exact hblank

/-- White space ends any token. -/
theorem endsBefore_of_blank {kind : TokenKind} {after : List Char}
    (h : ∀ c, after.head? = some c → isBlank c = true) : kind.EndsBefore after := by
  intro c hc
  have hblank := h c hc
  refine ⟨fun _ => ?_, fun _ => ?_⟩
  · rw [Bool.eq_false_iff]
    intro hword
    rw [isBlank_of_isWordChar hword] at hblank
    cases hblank
  · rintro rfl
    cases hblank

/-- What is written behind a token does not go on with it. -/
theorem endsBefore (h : IsSpacing (item :: rest) last) :
    item.kind.EndsBefore (Spaced.source last rest).toList := by
  cases rest with
  | nil =>
      apply endsBefore_of_blank
      intro c hc
      exact h.last_blank c (List.mem_of_mem_head? hc)
  | cons next rest =>
      rw [Spaced.source, String.toList_append, String.toList_append]
      cases hgap : next.gap.toList with
      | cons d more =>
          apply endsBefore_of_blank
          intro c hc
          obtain rfl : d = c := Option.some.inj hc
          exact h.blank next (by simp) d (hgap ▸ List.mem_cons_self)
      | nil =>
          have htouch := (List.isChain_cons_cons.mp h.touch).1 (String.toList_eq_nil_iff.mp hgap)
          obtain ⟨first, more, hcons, _, hword⟩ :=
            TokenKind.exists_cons_spelling (h.spellable next (by simp))
          rw [hcons]
          intro c hc
          obtain rfl : first = c := Option.some.inj hc
          refine ⟨fun hitem => ?_, fun htakes hequals => ?_⟩
          · rw [hword, Bool.eq_false_iff]
            exact fun hnext => htouch.1 ⟨hitem, hnext⟩
          · exact htouch.2 ⟨htakes, by rw [hcons, hequals, List.head?_cons]⟩

end IsSpacing

theorem Scan.ofText_source {items : List Spaced} {last : String} (h : IsSpacing items last)
    (offset : Nat) :
    ofText offset (Spaced.source last items).toList = ⟨Spaced.tokens offset items, []⟩ := by
  induction items generalizing offset with
  | nil =>
      have hlast := @ofText_gap offset [] last.toList h.last_blank (by simp)
      rw [List.append_nil] at hlast
      exact hlast
  | cons item rest ih =>
      rw [Spaced.source, String.toList_append, String.toList_append, List.append_assoc,
        ofText_gap (h.blank item List.mem_cons_self) fun _ => h.isBlank_head,
        ofText_spelling (h.spellable item List.mem_cons_self) h.endsBefore, ih h.tail,
        ← byteLength_ofList, String.ofList_toList]
      rfl

/-- Tokens that are written down are scanned as they were, each at the byte
where its spelling was placed, and nothing is reported. -/
theorem scan_source (items : List Spaced) (last : String) (h : IsSpacing items last) :
    scan (Spaced.source last items) = ⟨Spaced.tokens 0 items, []⟩ :=
  Scan.ofText_source h 0

/-- `C1=9223372036854775807< =<==true` in front of a no-break space: a name with
a digit, the greatest integer, and marks that would run together. -/
theorem scan_source_marks :
    let items : List Spaced :=
      [⟨"", .identifier "C1"⟩, ⟨"", .separator .assign⟩,
        ⟨"", .literal (.int 9223372036854775807)⟩, ⟨"", .operator .less⟩, ⟨" ", .separator .assign⟩,
        ⟨"", .operator .lessEqual⟩, ⟨"", .separator .assign⟩, ⟨"", .literal (.bool true)⟩]
    IsSpacing items "\u00a0" ∧
      scan "C1=9223372036854775807< =<==true\u00a0" =
        ⟨[⟨.identifier "C1", 0⟩, ⟨.separator .assign, 2⟩,
          ⟨.literal (.int 9223372036854775807), 3⟩, ⟨.operator .less, 22⟩,
          ⟨.separator .assign, 24⟩, ⟨.operator .lessEqual, 25⟩, ⟨.separator .assign, 27⟩,
          ⟨.literal (.bool true), 28⟩], []⟩ := by
  intro items
  have hspacing : IsSpacing items "\u00a0" := by
    refine ⟨?_, ?_, ?_, ?_⟩
    · have hfree (kind : TokenKind) (hkind : kind.isReservedWord = true) :
          kind.spelling ≠ "C1" := by
        cases kind with
        | keyword word => cases word <;> decide
        | typeName name => cases name <;> decide
        | literal value =>
            cases value with
            | bool value => cases value <;> decide
            | int value => cases hkind
        | identifier _ | separator _ | operator _ => cases hkind
      simpa [items, TokenKind.IsSpellable] using hfree
    · simp [items]
      decide
    · exact List.all_eq_true.mp (by decide)
    · decide
  exact ⟨hspacing, scan_source items "\u00a0" hspacing⟩

end ClassLang
