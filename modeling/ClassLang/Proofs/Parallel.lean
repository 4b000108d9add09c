import Mathlib.Data.List.Forall2
import ClassLang.Compile
import ClassLang.Proofs.Boundary
import ClassLang.Proofs.Lookahead.Classes

/-!
Scans in parallel. If two scans find the same tokens and report the same, only
at other places, then compiling ends in the same way for both: with the same
program, or with reports that say the same at the places that correspond. So it
does if one of them has whole classes in front, which the program then begins
with.
-/

namespace ClassLang

open Rule (ReadInTurn classWithin maxNesting)

/-- What compiling makes of a scanned source. -/
def Scan.outcome : Scan → Except (List Diagnostic) Program
  | ⟨tokens, []⟩ => (parse tokens).mapError ([·.toDiagnostic])
  | ⟨_, diagnostics⟩ => .error diagnostics

theorem compile_eq (source : String) : compile source = (scan source).outcome := rfl

theorem compile_ok_iff {source : String} {program : Program} :
    compile source = .ok program ↔
      (scan source).diagnostics = [] ∧ parse (scan source).tokens = .ok program := by
  rw [compile_eq]
  rcases scan source with ⟨tokens, _ | ⟨first, others⟩⟩
  · simp only [Scan.outcome, true_and]
    cases parse tokens <;> simp [Except.mapError]
  · simp [Scan.outcome]

/-- The reports are those of scanning, or there is none of these and one of parsing. -/
theorem compile_error_iff {source : String} {reports : List Diagnostic} :
    compile source = .error reports ↔
      ((scan source).diagnostics ≠ [] ∧ reports = (scan source).diagnostics) ∨
        ((scan source).diagnostics = [] ∧ ∃ error, parse (scan source).tokens = .error error ∧
          reports = [error.toDiagnostic]) := by
  rw [compile_eq]
  rcases scan source with ⟨tokens, _ | ⟨first, others⟩⟩
  · simp only [Scan.outcome]
    cases parse tokens <;> simp [Except.mapError, eq_comm]
  · simp [Scan.outcome, eq_comm]

variable {place : Nat → Nat → Prop}

/-- The same token, at places that correspond. -/
def Token.Matches (place : Nat → Nat → Prop) (token token' : Token) : Prop :=
  token'.kind = token.kind ∧ place token.offset token'.offset

/-- The same message, at places that correspond. -/
def Diagnostic.Matches (place : Nat → Nat → Prop) (report report' : Diagnostic) : Prop :=
  report'.message = report.message ∧ place report.offset report'.offset

structure Scan.Matches (place : Nat → Nat → Prop) (first second : Scan) : Prop where
  tokens : List.Forall₂ (Token.Matches place) first.tokens second.tokens
  diagnostics : List.Forall₂ (Diagnostic.Matches place) first.diagnostics second.diagnostics

theorem kinds_eq_of_matches {tokens tokens' : List Token}
    (h : List.Forall₂ (Token.Matches place) tokens tokens') : kinds tokens' = kinds tokens := by
  induction h with
  | nil => rfl
  | cons head _ ih => rw [kinds_cons, kinds_cons, head.1, ih]

/-- One of the two has classes in front of it; the other has something in it. -/
theorem Scan.Matches.outcome_append {first second : Scan} (h : first.Matches place second)
    (hsome : first ≠ ⟨[], []⟩) {before : List Token} {classes : List ClassDecl}
    (hbefore : ReadInTurn (classWithin maxNesting) before classes []) :
    (∃ program, first.outcome = .ok program ∧
        (⟨before, []⟩ ++ second : Scan).outcome = .ok ⟨classes ++ program.classes⟩) ∨
      ∃ reports reports', first.outcome = .error reports ∧
        (⟨before, []⟩ ++ second : Scan).outcome = .error reports' ∧
        List.Forall₂ (Diagnostic.Matches place) reports reports' := by
  obtain ⟨tokens, reports⟩ := first
  obtain ⟨tokens', reports'⟩ := second
  obtain ⟨htokens, hreports⟩ := h
  cases hreports with
  | cons head tail => exact .inr ⟨_, _, rfl, rfl, .cons head tail⟩
  | nil =>
      have hkinds := kinds_eq_of_matches htokens
      simp only [outcome, append_def, List.nil_append]
      cases hparse : parse tokens with
      | ok program =>
          refine .inl ⟨program, rfl, ?_⟩
          rw [parse_append_ok hbefore hkinds hparse]
          rfl
      | error error =>
          have hne : tokens ≠ [] := fun hnil => hsome (by rw [hnil])
          obtain ⟨token, token', hzip, hoffset, herror⟩ :=
            parse_append_error hbefore hkinds hne hparse
          obtain ⟨_, hplace⟩ : Token.Matches place token token' :=
            (List.forall₂_iff_zip.mp htokens).2 hzip
          rw [← hoffset] at hplace
          have hreport : Diagnostic.Matches place error.toDiagnostic
              (SyntaxError.toDiagnostic ⟨error.fault, token'.offset⟩) := ⟨rfl, hplace⟩
          rw [herror]
          exact .inr ⟨_, _, rfl, rfl, .cons hreport .nil⟩

end ClassLang
