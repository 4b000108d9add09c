import ClassLang.Dump.Tree
import ClassLang.Proofs.Dump.Collapse
import ClassLang.Proofs.Dump.Indentation
import ClassLang.Proofs.Messages
import Mathlib.Data.List.Basic

/-!
Trees and diagnostics as documents. Each kind of node has a name of its own and
shows all of its parts in their order, so trees of one document are one tree.
-/

namespace ClassLang

open Dump Document

-- All names and labels of nodes are fixed words, so `simp` can look at their characters.
attribute [simp] IsName isNameChar

namespace Dump.Document

theorem wellNamed_word {text : String} : (word text).WellNamed ↔ IsName text :=
  ⟨fun | .word htext => htext, .word⟩

@[simp] theorem wellNamed_quoted (text : String) : (Document.quoted text).WellNamed := .quoted text

@[simp] theorem wellNamed_labelled {label : String} {value : Document} :
    (labelled label value).WellNamed ↔ IsName label ∧ value.WellNamed :=
  ⟨fun | .labelled hlabel hvalue => ⟨hlabel, hvalue⟩, fun h => .labelled h.1 h.2⟩

@[simp] theorem wellNamed_group {name : String} {bracket : Bracket} {entries : List Document} :
    (group name bracket entries).WellNamed ↔
      (IsName name ∨ name = "" ∧ bracket = .square) ∧ ∀ entry ∈ entries, entry.WellNamed :=
  ⟨fun | .group _ hname hentries => ⟨hname, hentries⟩, fun h => .group bracket h.1 h.2⟩

@[simp] theorem wellNamed_record {name : String} {fields : List (String × Document)} :
    (record name fields).WellNamed ↔
      IsName name ∧ ∀ field ∈ fields, IsName field.1 ∧ field.2.WellNamed := by
  rw [record, wellNamed_group, List.forall_mem_map]
  simp

@[simp] theorem wellNamed_wrapped {name : String} {value : Document} :
    (wrapped name value).WellNamed ↔ IsName name ∧ value.WellNamed := by
  simp [wrapped]

@[simp] theorem wellNamed_list {entries : List Document} :
    (list entries).WellNamed ↔ ∀ entry ∈ entries, entry.WellNamed := by
  simp [list]

@[simp] theorem wellNamed_optional {value : Option Document} :
    (optional value).WellNamed ↔ ∀ entry ∈ value, entry.WellNamed := by
  cases value with
  | none => simp [optional, wellNamed_word]
  | some value => simp [optional]

theorem optional_injective : Function.Injective Document.optional := by
  intro first second h
  cases first <;> cases second <;> simp_all [Document.optional, wrapped]

end Dump.Document

theorem isName_repr (n : Nat) : IsName n.repr := by
  refine ⟨Nat.repr_ne_empty, fun c hc => ?_⟩
  rw [Nat.toList_repr] at hc
  have hdigit : c.isDigit = true := Nat.isDigit_of_mem_toDigits (by decide) (by decide) hc
  simp [isNameChar, isAlphanum_of_isDigit hdigit]

theorem isName_int_repr (n : Int) : IsName n.repr := by
  cases n with
  | ofNat n => exact isName_repr n
  | negSucc n =>
      change IsName ("-" ++ (n + 1).repr)
      refine ⟨by simp, fun c hc => ?_⟩
      rw [String.toList_append] at hc
      rcases List.mem_append.mp hc with hminus | hdigits
      · obtain rfl : c = '-' := by simpa using hminus
        rfl
      · exact (isName_repr (n + 1)).2 c hdigits

theorem Literal.wellNamed (value : Literal) : value.document.WellNamed := by
  cases value with
  | int value =>
      have hword := wellNamed_word.mpr (isName_int_repr value.toInt)
      simp [document, spelling, hword]
  | bool truth => cases truth <;> simp [document, spelling, wellNamed_word]

theorem wellNamed_pathDocument (path : List String) : (pathDocument path).WellNamed := by
  simp [pathDocument]

theorem Operator.wellNamed_nodeName (symbol : Operator) : (word symbol.nodeName).WellNamed := by
  cases symbol <;> simp [nodeName, wellNamed_word]

mutual

theorem Expression.wellNamed : (value : Expression) → value.document.WellNamed
  | .literal value => by simp [Expression.document, value.wellNamed]
  | .reference path => by simp [Expression.document, wellNamed_pathDocument path]
  | .new className arguments => by
      simpa [Expression.document] using wellNamed_documents arguments
  | .call path arguments => by
      simpa [Expression.document, wellNamed_pathDocument path] using wellNamed_documents arguments
  | .assignment path value => by
      simp [Expression.document, wellNamed_pathDocument path, value.wellNamed]
  | .binary symbol left right => by
      simp [Expression.document, symbol.wellNamed_nodeName, left.wellNamed, right.wellNamed]

theorem Expression.wellNamed_documents :
    (values : List Expression) → ∀ entry ∈ Expression.documents values, entry.WellNamed
  | [] => by simp [Expression.documents]
  | first :: rest => by
      simpa [Expression.documents, first.wellNamed] using wellNamed_documents rest

end

mutual

theorem Statement.wellNamed : (statement : Statement) → statement.document.WellNamed
  | .block statements => by
      simpa [Statement.document, blockDocument] using wellNamed_documents statements
  | .ifThen condition onTrue => by
      simp [Statement.document, condition.wellNamed, onTrue.wellNamed]
  | .ifElse condition onTrue onFalse => by
      simp [Statement.document, condition.wellNamed, onTrue.wellNamed, onFalse.wellNamed]
  | .whileLoop condition body => by
      simp [Statement.document, condition.wellNamed, body.wellNamed]
  | .returnStmt value => by simp [Statement.document, Expression.wellNamed]
  | .breakStmt => by simp [Statement.document, wellNamed_word]
  | .declaration type name value => by simp [Statement.document, Expression.wellNamed]
  | .expression value => by simp [Statement.document, value.wellNamed]
  | .empty => by simp [Statement.document, wellNamed_word]

theorem Statement.wellNamed_documents :
    (statements : List Statement) → ∀ entry ∈ Statement.documents statements, entry.WellNamed
  | [] => by simp [Statement.documents]
  | first :: rest => by
      simpa [Statement.documents, first.wellNamed] using wellNamed_documents rest

end

theorem Param.wellNamed (param : Param) : param.document.WellNamed := by
  simp [document]

theorem Member.wellNamed (member : Member) : member.document.WellNamed := by
  cases member with
  | field type name value => simp [document, Expression.wellNamed]
  | method returnType name params body =>
      simpa [document, blockDocument, Param.wellNamed] using Statement.wellNamed_documents body
  | constructor name params body =>
      simpa [document, blockDocument, Param.wellNamed] using Statement.wellNamed_documents body

theorem ClassDecl.wellNamed (classDecl : ClassDecl) : classDecl.document.WellNamed := by
  simp [document, Member.wellNamed]

theorem Program.wellNamed (program : Program) : program.document.WellNamed := by
  simp [document, ClassDecl.wellNamed]

theorem Diagnostic.wellNamed (diagnostic : Diagnostic) : diagnostic.document.WellNamed := by
  have hword := wellNamed_word.mpr (isName_repr diagnostic.offset)
  simp [document, hword]

theorem Literal.document_inj {first second : Literal} (h : first.document = second.document) :
    first = second := by
  cases first <;> cases second <;>
    simp only [document, wrapped, group.injEq, String.reduceEq, false_and, true_and,
      List.cons.injEq, and_true, word.injEq] at h
  case int.int => exact spelling_inj h
  case bool.bool => exact spelling_inj h

theorem pathDocument_inj {first second : List String} :
    pathDocument first = pathDocument second ↔ first = second := by
  simp [pathDocument, wrapped, list, List.map_inj_right]

theorem Operator.nodeName_inj {first second : Operator} (h : first.nodeName = second.nodeName) :
    first = second := by
  cases first <;> cases second <;> first | rfl | simp [nodeName] at h

mutual

theorem Expression.document_inj (first second : Expression)
    (h : first.document = second.document) : first = second := by
  cases first <;> cases second <;>
    simp only [Expression.document, record, wrapped, list, List.map_cons, List.map_nil,
      group.injEq, labelled.injEq, List.cons.injEq, quoted.injEq, word.injEq, reduceCtorEq,
      String.reduceEq, pathDocument_inj, true_and, and_true, false_and, and_false] at h
  case literal.literal => rw [Literal.document_inj h]
  case reference.reference => rw [h]
  case new.new => rw [h.1, documents_inj _ _ h.2]
  case call.call => rw [h.1, documents_inj _ _ h.2]
  case assignment.assignment => rw [h.1, document_inj _ _ h.2]
  case binary.binary =>
      rw [Operator.nodeName_inj h.1, document_inj _ _ h.2.1, document_inj _ _ h.2.2]

theorem Expression.documents_inj (first second : List Expression)
    (h : Expression.documents first = Expression.documents second) : first = second := by
  cases first <;> cases second <;>
    simp only [Expression.documents, List.cons.injEq, reduceCtorEq] at h
  case nil.nil => rfl
  case cons.cons => rw [document_inj _ _ h.1, documents_inj _ _ h.2]

end

theorem initializer_inj {value value' : Option Expression} :
    value.map (·.document) = value'.map (·.document) ↔ value = value' :=
  (Option.map_injective Expression.document_inj).eq_iff

theorem blockDocument_inj {statements statements' : List Document} :
    blockDocument statements = blockDocument statements' ↔ statements = statements' := by
  simp [blockDocument, record, list]

mutual

theorem Statement.document_inj (first second : Statement)
    (h : first.document = second.document) : first = second := by
  cases first <;> cases second <;>
    simp only [Statement.document, record, wrapped, List.map_cons, List.map_nil,
      group.injEq, labelled.injEq, List.cons.injEq, quoted.injEq, word.injEq, reduceCtorEq,
      String.reduceEq, blockDocument_inj, initializer_inj, optional_injective.eq_iff,
      Option.some.injEq, true_and, and_true, false_and, and_false] at h
  case block.block => rw [documents_inj _ _ h]
  case ifThen.ifThen => rw [Expression.document_inj _ _ h.1, document_inj _ _ h.2]
  case ifElse.ifElse =>
      rw [Expression.document_inj _ _ h.1, document_inj _ _ h.2.1, document_inj _ _ h.2.2]
  case whileLoop.whileLoop => rw [Expression.document_inj _ _ h.1, document_inj _ _ h.2]
  case returnStmt.returnStmt => rw [h]
  case breakStmt.breakStmt => rfl
  case declaration.declaration => rw [h.1, h.2.1, h.2.2]
  case expression.expression => rw [Expression.document_inj _ _ h]
  case empty.empty => rfl

theorem Statement.documents_inj (first second : List Statement)
    (h : Statement.documents first = Statement.documents second) : first = second := by
  cases first <;> cases second <;>
    simp only [Statement.documents, List.cons.injEq, reduceCtorEq] at h
  case nil.nil => rfl
  case cons.cons => rw [document_inj _ _ h.1, documents_inj _ _ h.2]

end

theorem Param.document_injective : Function.Injective Param.document := by
  rintro ⟨type, name⟩ ⟨type', name'⟩ h
  simpa [document, record] using h

theorem Member.document_injective : Function.Injective Member.document := by
  intro first second h
  have hparams := Param.document_injective.list_map
  cases first <;> cases second <;>
    simp only [document, record, list, List.map_cons, List.map_nil, group.injEq, labelled.injEq,
      List.cons.injEq, quoted.injEq, String.reduceEq, blockDocument_inj, initializer_inj,
      optional_injective.eq_iff, hparams.eq_iff, true_and, and_true, false_and] at h
  case field.field => rw [h.1, h.2.1, h.2.2]
  case method.method =>
      rw [h.1, h.2.1, h.2.2.1, Statement.documents_inj _ _ h.2.2.2]
  case constructor.constructor => rw [h.1, h.2.1, Statement.documents_inj _ _ h.2.2]

theorem ClassDecl.document_injective : Function.Injective ClassDecl.document := by
  rintro ⟨name, parent, members⟩ ⟨name', parent', members'⟩ h
  have hmembers := Member.document_injective.list_map
  simpa [document, record, list, optional_injective.eq_iff, Option.map_inj_right,
    hmembers.eq_iff] using h

theorem Program.document_injective : Function.Injective Program.document := by
  rintro ⟨classes⟩ ⟨classes'⟩ h
  simpa [document, record, list, ClassDecl.document_injective.list_map.eq_iff] using h

/-- Trees of one text are one tree, in both forms. Names may hold any characters;
those of ASCII are the ones whose escapes are the real ones, as in every name
that comes from a source. -/
theorem Program.dumps_injective :
    Function.Injective Program.compact ∧ Function.Injective Program.pretty := by
  constructor
  · intro first second h
    exact document_injective (first.wellNamed.compact_inj second.wellNamed h)
  · intro first second h
    exact document_injective (first.wellNamed.pretty_inj second.wellNamed h)

/-- A pretty text that differs from the compact one in nothing but its layout, with
the indentation that its brackets ask for. -/
structure IsLayoutOf (pretty compact : String) : Prop where
  collapse_eq : collapse pretty.toList = compact.toList
  isIndented : IsIndented pretty.toList

theorem Dump.Document.WellNamed.isLayoutOf {document : Document} (h : document.WellNamed) :
    IsLayoutOf (document.pretty 0) document.compact where
  collapse_eq := h.collapse_toList_pretty 0
  isIndented := h.isIndented_pretty

/-- The two forms of a tree say the same, and so do those of a list of diagnostics. -/
theorem pretty_isLayoutOf_compact :
    (∀ program : Program, IsLayoutOf program.pretty program.compact) ∧
      ∀ diagnostics : List Diagnostic,
        IsLayoutOf (Diagnostic.prettyAll diagnostics) (Diagnostic.compactAll diagnostics) := by
  refine ⟨fun program => program.wellNamed.isLayoutOf, fun diagnostics => ?_⟩
  have hlist : (list (diagnostics.map Diagnostic.document)).WellNamed := by
    simp [Diagnostic.wellNamed]
  exact hlist.isLayoutOf

end ClassLang
