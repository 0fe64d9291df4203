import Libdap.Escaping.Xml

/-! # Double quotes

A backslash is put before each quote, and taken away again. Both loops go on behind the quote.
-/

namespace Libdap.Escaping

open Rewriting Rewriter

def escapeQuotes : Rewriter Char := each (· == '"') (fun _ => "\\\"".toList) 2 (fun _ _ _ mem => absurd mem List.not_mem_nil)

def escape_double_quotes (source : Text) : Text := escapeQuotes.rewrite source

def unescapeQuotes : Rewriter Char := replacing "\\\"".toList ['"'] 1 (by decide)

def unescape_double_quotes (source : Text) : Text := unescapeQuotes.rewrite source

theorem escape_nil : escape_double_quotes [] = [] := rewrite_nil _

theorem escape_eq (s : Text) : escape_double_quotes s = s.flatMap fun c => if c == '"' then "\\\"".toList else [c] :=
  rewrite_each (fun _ _ => Nat.le_refl 2) s

theorem escape_quote (cs : Text) : escape_double_quotes ('"' :: cs) = '\\' :: '"' :: escape_double_quotes cs := by
  rw [escape_eq, List.flatMap_cons, ← escape_eq]
  rfl

theorem escape_other {c : Char} (other : c ≠ '"') (cs : Text) :
    escape_double_quotes (c :: cs) = c :: escape_double_quotes cs := by
  rw [escape_eq, List.flatMap_cons, ← escape_eq, if_neg (by simpa using other), List.singleton_append]

/-- No escaped text starts with a quote. -/
theorem head_escape (s : Text) : (escape_double_quotes s).head? ≠ some '"' := by
  cases s with
  | nil => rw [escape_nil]; decide
  | cons c cs =>
      by_cases quote : c = '"'
      · subst quote
        rw [escape_quote]
        exact fun same => absurd (Option.some.inj same) (by decide)
      · rw [escape_other quote, List.head?_cons]
        exact fun same => quote (Option.some.inj same)

theorem unescape_escape (s : Text) : unescape_double_quotes (escape_double_quotes s) = s := by
  induction s with
  | nil => rw [escape_nil, unescape_double_quotes, rewrite_nil]
  | cons c cs ih =>
      by_cases quote : c = '"'
      · subst quote
        have taken := @rewrite_word _ _ "\\\"".toList ['"'] 1 (by decide) (escape_double_quotes cs)
        rw [escape_quote]
        exact taken.trans (congrArg ('"' :: ·) ih)
      · have miss : ¬"\\\"".toList <+: c :: escape_double_quotes cs := by
          intro starts
          obtain ⟨rest, same⟩ := (List.cons_prefix_cons.mp starts).2
          exact head_escape cs (same ▸ rfl)
        rw [escape_other quote]
        exact (rewrite_other miss).trans (congrArg (c :: ·) ih)

/-- A quote of the escaped text is one of the text, and comes behind the backslash that was put before it. -/
theorem quote_in_escape (s : Text) {k : Nat} (quote : (escape_double_quotes s)[k]? = some '"') :
    ∃ front rest, s = front ++ '"' :: rest ∧ k = (escape_double_quotes front).length + 1 ∧
      escape_double_quotes s = escape_double_quotes front ++ '\\' :: '"' :: escape_double_quotes rest := by
  induction s generalizing k with
  | nil =>
      rw [escape_nil] at quote
      cases quote
  | cons c cs ih =>
      by_cases here : c = '"'
      · subst here
        rw [escape_quote] at quote ⊢
        rcases k with _ | _ | k
        · exact absurd (Option.some.inj quote) (by decide)
        · exact ⟨[], cs, rfl, by rw [escape_nil]; rfl, by rw [escape_nil]; rfl⟩
        · obtain ⟨front, rest, whole, place, escaped⟩ := ih quote
          refine ⟨'"' :: front, rest, by rw [whole]; rfl, ?_, ?_⟩
          · rw [escape_quote, place]
            rfl
          · rw [escape_quote, escaped]
            rfl
      · rw [escape_other here] at quote ⊢
        rcases k with _ | k
        · exact absurd (Option.some.inj quote) here
        · obtain ⟨front, rest, whole, place, escaped⟩ := ih quote
          refine ⟨c :: front, rest, by rw [whole]; rfl, ?_, ?_⟩
          · rw [escape_other here, place]
            rfl
          · rw [escape_other here, escaped]
            rfl

/-- Quotes come back, and none is left without a backslash of its own. -/
theorem double_quotes_escaped (s : Text) : unescape_double_quotes (escape_double_quotes s) = s ∧
    ∀ k, (escape_double_quotes s)[k]? = some '"' → ∃ front rest, s = front ++ '"' :: rest ∧
      k = (escape_double_quotes front).length + 1 ∧
      escape_double_quotes s = escape_double_quotes front ++ '\\' :: '"' :: escape_double_quotes rest :=
  ⟨unescape_escape s, fun _ => quote_in_escape s⟩

end Libdap.Escaping
