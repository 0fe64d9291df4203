import Libdap.Http.CacheIndex
import Mathlib.Data.List.Forall2
import Mathlib.Data.List.TakeWhile

/-! # The lines of a file

What `fgets` makes of a file whose text is lines that end with a newline. A line is cut
where the buffer is full.
-/

namespace Libdap.Http

theorem cstr_of_isInfix (text : Text) : cstr text <:+: text := (List.takeWhile_prefix _).isInfix

theorem null_notMem_cstr (text : Text) : '\x00' ∉ cstr text := by
  intro null
  have kept := List.mem_takeWhile_imp null
  simp at kept

theorem cstr_eq_self {text : Text} (noNull : '\x00' ∉ text) : cstr text = text := by
  apply List.takeWhile_eq_self_iff.mpr
  intro ch mem
  have other : ch ≠ '\x00' := fun same => noNull (same ▸ mem)
  simpa using other

theorem find_eq_zero_of_starts {needle text : Text} (starts : needle.isPrefixOf text) : find needle text = some 0 := by
  cases text with
  | nil =>
    have empty : needle = [] := List.prefix_nil.mp (List.isPrefixOf_iff_prefix.mp starts)
    simp only [find, empty, ↓reduceIte]
  | cons ch rest => simp only [find, starts, ↓reduceIte]

/-- A text is found where it is a part. -/
theorem find_isSome_iff {needle text : Text} : (find needle text).isSome = true ↔ needle <:+: text := by
  induction text with
  | nil =>
    simp only [find, List.infix_nil]
    split <;> simp_all
  | cons ch rest ih =>
    rw [List.infix_cons_iff, ← ih, ← List.isPrefixOf_iff_prefix]
    simp only [find]
    split
    · rename_i starts
      simp only [starts, Option.isSome_some, true_or]
    · rename_i other
      simp only [Option.isSome_map, other, Bool.false_eq_true, false_or]

theorem contains_iff {text : Text} {needle : String} : contains text needle = true ↔ needle.toList <:+: text :=
  find_isSome_iff

theorem infix_of_infix_concat {needle text : Text} {ch : Char} (part : needle <:+: text ++ [ch]) (other : ch ∉ needle) :
    needle <:+: text := by
  rcases List.infix_concat_iff.mp part with last | inside
  · rcases List.suffix_concat_iff.mp last with empty | ⟨front, same, _⟩
    · exact empty ▸ List.nil_infix
    · exact absurd (same ▸ List.mem_append_right front List.mem_cons_self) other
  · exact inside

theorem forall₂_of_mapM {α β : Type} {f : α → Option β} {as : List α} {bs : List β} (all : as.mapM f = some bs) :
    List.Forall₂ (fun a b => f a = some b) as bs := by
  induction as generalizing bs with
  | nil =>
    cases all
    exact .nil
  | cons a as ih =>
    rw [List.mapM_cons] at all
    cases here : f a with
    | none =>
      rw [here] at all
      cases all
    | some b =>
      cases rest : as.mapM f with
      | none =>
        rw [here, rest] at all
        cases all
      | some others =>
        rw [here, rest] at all
        cases all
        exact .cons here (ih rest)

theorem exists_of_forall₂ {α β : Type} {R : α → β → Prop} {as : List α} {bs : List β} (pairs : List.Forall₂ R as bs)
    {b : β} (mem : b ∈ bs) : ∃ a ∈ as, R a b := by
  induction pairs with
  | nil => cases mem
  | cons here _ ih =>
    cases mem with
    | head => exact ⟨_, List.mem_cons_self, here⟩
    | tail _ mem =>
      obtain ⟨a, there, related⟩ := ih mem
      exact ⟨a, List.mem_cons_of_mem _ there, related⟩

/-- What has been read of a line is read before the rest of the file. -/
theorem fgetsLines_append (line text rest : Text) :
    fgetsLines line (text ++ '\n' :: rest) = fgetsLines line (text ++ ['\n']) ++ fgetsLines [] rest := by
  induction text generalizing line with
  | nil => simp [fgetsLines]
  | cons ch text ih =>
    simp only [List.cons_append, fgetsLines]
    split
    · rw [ih [], List.cons_append]
    · rw [ih (line ++ [ch])]

theorem fgetsLines_ne_nil (line text : Text) : fgetsLines line (text ++ ['\n']) ≠ [] := by
  induction text generalizing line with
  | nil => simp [fgetsLines]
  | cons ch text ih =>
    simp only [List.cons_append, fgetsLines]
    split
    · exact List.cons_ne_nil _ _
    · exact ih _

/-- The buffer has room for 1023 characters and a null. -/
theorem length_of_mem_fgetsLines {line text piece : Text} (room : line.length ≤ 1022)
    (mem : piece ∈ fgetsLines line text) : piece.length ≤ 1023 := by
  induction text generalizing line with
  | nil =>
    simp only [fgetsLines] at mem
    split at mem
    · cases mem
    · rw [List.mem_singleton] at mem
      subst mem
      omega
  | cons ch text ih =>
    simp only [fgetsLines] at mem
    split at mem
    · cases mem with
      | head =>
        rw [List.length_append, List.length_singleton]
        omega
      | tail _ mem => exact ih (Nat.zero_le _) mem
    · rename_i more
      apply ih _ mem
      rw [List.length_append, List.length_singleton]
      omega

theorem infix_of_mem_fgetsLines {line text piece : Text} (mem : piece ∈ fgetsLines line text) :
    piece <:+: line ++ text := by
  induction text generalizing line with
  | nil =>
    simp only [fgetsLines] at mem
    split at mem
    · cases mem
    · rw [List.mem_singleton] at mem
      subst mem
      exact ⟨[], [], by simp⟩
  | cons ch text ih =>
    simp only [fgetsLines] at mem
    split at mem
    · cases mem with
      | head => exact ⟨[], text, by simp⟩
      | tail _ mem =>
        have later := ih mem
        rw [List.nil_append] at later
        exact later.trans ⟨line ++ [ch], [], by simp⟩
    · have later := ih mem
      rwa [List.append_assoc] at later

theorem fgetsLines_eq {line text : Text} (newline : '\n' ∉ text) (short : line.length + text.length ≤ 1022) :
    fgetsLines line (text ++ ['\n']) = [line ++ text ++ ['\n']] := by
  induction text generalizing line with
  | nil => simp [fgetsLines]
  | cons ch text ih =>
    rw [List.mem_cons, not_or] at newline
    rw [List.length_cons] at short
    have more : ¬(ch = '\n' ∨ line.length = 1022) := by
      rintro (same | full)
      · exact newline.1 same.symm
      · omega
    simp only [List.cons_append, fgetsLines, more, ↓reduceIte]
    rw [ih newline.2 (by rw [List.length_append, List.length_singleton]; omega), List.append_assoc line [ch] text,
      List.singleton_append]

/-- Nothing of a file is lost between its lines. -/
theorem flatten_fgetsLines (line text : Text) : (fgetsLines line text).flatten = line ++ text := by
  induction text generalizing line with
  | nil =>
    simp only [fgetsLines]
    split
    · rename_i empty
      rw [empty]
      rfl
    · simp only [List.flatten_cons, List.flatten_nil]
  | cons ch text ih =>
    simp only [fgetsLines]
    split
    · rw [List.flatten_cons, ih, List.nil_append, List.append_assoc, List.singleton_append]
    · rw [ih, List.append_assoc, List.singleton_append]

theorem fgetsLines_flatMap {α : Type} (f : α → Text) (as : List α) :
    fgetsLines [] (as.flatMap fun a => f a ++ ['\n']) = as.flatMap fun a => fgetsLines [] (f a ++ ['\n']) := by
  induction as with
  | nil => rfl
  | cons a as ih =>
    rw [List.flatMap_cons, List.flatMap_cons, List.append_assoc, List.singleton_append, fgetsLines_append, ih]

section

variable {α β : Type} {f : α → List β} (filled : ∀ a, f a ≠ [])

include filled

theorem length_le_flatMap (as : List α) : as.length ≤ (as.flatMap f).length := by
  induction as with
  | nil => exact Nat.le_refl _
  | cons a as ih =>
    have some_ := List.length_pos_iff.mpr (filled a)
    rw [List.flatMap_cons, List.length_append, List.length_cons]
    omega

/-- With no more parts than there are elements each has one. -/
theorem length_eq_one_of_flatMap {as : List α} (few : (as.flatMap f).length ≤ as.length) :
    ∀ a ∈ as, (f a).length = 1 := by
  induction as with
  | nil => exact fun a mem => absurd mem List.not_mem_nil
  | cons a as ih =>
    have some_ := List.length_pos_iff.mpr (filled a)
    have rest := length_le_flatMap filled as
    rw [List.flatMap_cons, List.length_append, List.length_cons] at few
    intro b mem
    cases mem with
    | head => omega
    | tail _ mem => exact ih (by omega) b mem

end

end Libdap.Http
