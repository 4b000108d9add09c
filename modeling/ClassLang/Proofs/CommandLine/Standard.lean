import ClassLang.CommandLine.Standard
import Mathlib.Data.Bool.Basic

/-!
The standard host keeps what is promised of a host. The arguments are read one
after the other: each path and each flag among them adds itself to what the ones
before it have come to.
-/

namespace ClassLang.CommandLine

section Arguments

theorem flagPart_dashes (rest : List String) : flagPart ("--" :: rest) = [] := rfl

theorem pathPart_dashes (rest : List String) : pathPart ("--" :: rest) = rest := rfl

variable {argument : String} {rest : List String}

theorem flagPart_cons (h : argument ≠ "--") :
    flagPart (argument :: rest) = argument :: flagPart rest :=
  List.takeWhile_cons_of_pos (by simpa using h)

theorem pathPart_flag (h : argument = "--tokens" ∨ argument = "--ast") :
    pathPart (argument :: rest) = pathPart rest := by
  rcases h with rfl | rfl <;> rfl

theorem pathPart_cons (hdashes : argument ≠ "--") (htokens : argument ≠ "--tokens")
    (htree : argument ≠ "--ast") : pathPart (argument :: rest) = argument :: pathPart rest := by
  simp [pathPart, flagPart, hdashes, htokens, htree]

/-- The arguments lead from one draft to another: each path, and each flag, adds
itself to what the first has. -/
structure Draft.Reaches (draft : Draft) (arguments : List String) (result : Draft) : Prop where
  path : result.path?.toList = draft.path?.toList ++ pathPart arguments
  path_ne_empty : ∀ path ∈ pathPart arguments, path ≠ ""
  plain : ∀ argument ∈ flagPart arguments,
    argument = "--tokens" ∨ argument = "--ast" ∨ isPlain argument = true
  tokens : result.tokens.toNat = draft.tokens.toNat + (flagPart arguments).count "--tokens"
  tree : result.tree.toNat = draft.tree.toNat + (flagPart arguments).count "--ast"

namespace Draft

variable {draft result : Draft}

/-- Where a path is added to it, a draft has none yet. -/
theorem path?_eq_none {path : String} {paths : List String}
    (h : result.path?.toList = draft.path?.toList ++ path :: paths) : draft.path? = none := by
  cases hpath : draft.path? with
  | none => rfl
  | some first =>
      have hlength := congrArg List.length h
      cases hresult : result.path? <;> simp [hpath, hresult] at hlength

theorem addPath_of_append {path : String} {paths : List String}
    (h : result.path?.toList = draft.path?.toList ++ path :: paths) (hpath : path ≠ "") :
    draft.addPath path = .ok { draft with path? := some path } := by
  unfold addPath
  rw [path?_eq_none h]
  exact if_neg hpath

theorem append_addPath {path : String} {paths : List String}
    (h : result.path?.toList = draft.path?.toList ++ path :: paths) :
    result.path?.toList =
      ({ draft with path? := some path } : Draft).path?.toList ++ paths := by
  rw [path?_eq_none h] at h
  exact h

theorem foldlM_addPath {paths : List String} (htokens : result.tokens = draft.tokens)
    (htree : result.tree = draft.tree)
    (hpath : result.path?.toList = draft.path?.toList ++ paths)
    (hpaths : ∀ path ∈ paths, path ≠ "") :
    paths.foldlM addPath draft = .ok result := by
  induction paths generalizing draft with
  | nil =>
      obtain ⟨path?, tokens, tree⟩ := draft
      obtain ⟨path?', tokens', tree'⟩ := result
      obtain rfl : tokens' = tokens := htokens
      obtain rfl : tree' = tree := htree
      cases path? <;> cases path?' <;> simp_all [pure, Except.pure]
  | cons path paths ih =>
      obtain ⟨hfirst, hothers⟩ := List.forall_mem_cons.mp hpaths
      rw [List.foldlM_cons, addPath_of_append hpath hfirst]
      exact ih htokens htree (append_addPath hpath) hothers

theorem eq_of_toNat {first second : Bool} (h : first.toNat = second.toNat) : first = second :=
  Function.LeftInverse.injective Bool.ofNat_toNat h

/-- A flag that comes is not there yet, and comes for the last time. -/
theorem toNat_of_flag {before after : Bool} {others : Nat}
    (h : after.toNat = before.toNat + (others + 1)) :
    before = false ∧ after.toNat = true.toNat + others := by
  have hle := after.toNat_le
  cases before with
  | false => exact ⟨rfl, by rw [h, Bool.toNat_false, Bool.toNat_true]; omega⟩
  | true =>
      rw [Bool.toNat_true] at h
      omega

theorem Reaches.read_eq {arguments : List String} (h : draft.Reaches arguments result) :
    draft.read arguments = .ok result := by
  induction arguments generalizing draft with
  | nil =>
      obtain ⟨hpath, hpaths, _, htokens, htree⟩ := h
      exact foldlM_addPath (eq_of_toNat htokens) (eq_of_toNat htree) hpath hpaths
  | cons argument rest ih =>
      obtain ⟨hpath, hpaths, hplain, htokens, htree⟩ := h
      unfold read
      by_cases hdashes : argument = "--"
      · subst hdashes
        rw [pathPart_dashes] at hpath hpaths
        rw [flagPart_dashes] at htokens htree
        exact foldlM_addPath (eq_of_toNat htokens) (eq_of_toNat htree) hpath hpaths
      rw [flagPart_cons hdashes] at hplain htokens htree
      obtain ⟨hargument, hrest⟩ := List.forall_mem_cons.mp hplain
      rw [if_neg hdashes]
      by_cases hfirst : argument = "--tokens"
      · subst hfirst
        rw [pathPart_flag (.inl rfl)] at hpath hpaths
        rw [List.count_cons_self] at htokens
        rw [List.count_cons_of_ne (by decide)] at htree
        obtain ⟨hbefore, hafter⟩ := toNat_of_flag htokens
        rw [if_pos rfl, hbefore]
        exact ih ⟨hpath, hpaths, hrest, hafter, htree⟩
      by_cases hsecond : argument = "--ast"
      · subst hsecond
        rw [pathPart_flag (.inr rfl)] at hpath hpaths
        rw [List.count_cons_self] at htree
        rw [List.count_cons_of_ne (by decide)] at htokens
        obtain ⟨hbefore, hafter⟩ := toNat_of_flag htree
        rw [if_neg hfirst, if_pos rfl, hbefore]
        exact ih ⟨hpath, hpaths, hrest, htokens, hafter⟩
      · rw [pathPart_cons hdashes hfirst hsecond] at hpath hpaths
        obtain ⟨hargument_ne, hothers⟩ := List.forall_mem_cons.mp hpaths
        rw [List.count_cons_of_ne hfirst] at htokens
        rw [List.count_cons_of_ne hsecond] at htree
        have hisPlain := (hargument.resolve_left hfirst).resolve_left hsecond
        rw [if_neg hfirst, if_neg hsecond, if_pos hisPlain, addPath_of_append hpath hargument_ne]
        exact ih ⟨append_addPath hpath, hothers, hrest, htokens, htree⟩

end Draft

theorem Asks.read_eq {arguments : List String} {options : Options} (h : Asks arguments options) :
    Draft.empty.read arguments = .ok ⟨some options.path, options.tokens, options.tree⟩ := by
  apply Draft.Reaches.read_eq
  refine ⟨h.path.symm, ?_, h.plain, ?_, ?_⟩
  · rw [h.path]
    exact fun path hpath => List.mem_singleton.mp hpath ▸ h.path_ne_empty
  · rw [h.tokens]
    exact (Nat.zero_add _).symm
  · rw [h.tree]
    exact (Nat.zero_add _).symm

end Arguments

theorem Host.documented_standard : Host.standard.Documented where
  readArguments {arguments options} hasks := by
    change (Draft.empty.read arguments).bind Draft.finish = .ok options
    rw [hasks.read_eq]
    rfl
  log_opening := rfl
  log_line _ event hlevel := if_neg fun hmem => hlevel (List.mem_singleton.mp hmem)
  exitCode _ _ := rfl
  text _ := rfl

end ClassLang.CommandLine
