import StackLift.Graph.Dot

/-!
# Escaped text

Escaping replaces one character after the other throughout the text. Since backslashes come first,
this is the same as writing every character on its own (`escapeChars_eq_flatMap`), and what is
written is a sequence of single characters and of characters behind a backslash (`Sealed`), from
which the text can be read back: no two characters start in the same way
(`escapeChar_append_inj`).
-/
namespace StackLift

namespace Dot

/-- What is written for one character. -/
def escapeChar (c : Char) : List Char :=
  if c = '\\' ∨ c = '"' ∨ c = '<' ∨ c = '>' then ['\\', c]
  else if c = '\n' then ['\\', 'n']
  else if c = '\r' then []
  else [c]

/-- Read from the left, every character stands for itself or is taken along by the backslash before
it. No quote stands for itself, no backslash is the last character, and there is no newline. -/
inductive Sealed : List Char → Prop
  | nil : Sealed []
  | plain {c : Char} {s : List Char} (slash : c ≠ '\\') (quote : c ≠ '"') (line : c ≠ '\n') :
    Sealed s → Sealed (c :: s)
  | taken {c : Char} {s : List Char} (line : c ≠ '\n') : Sealed s → Sealed ('\\' :: c :: s)

variable {c d : Char} {r s t : List Char}

theorem replace_flatMap (f : Char → List Char) (s : List Char) :
    replace c r (s.flatMap f) = s.flatMap fun d => replace c r (f d) := by
  unfold replace
  rw [List.flatMap_assoc]

theorem escapeChars_flatMap (f : Char → List Char) (s : List Char) :
    escapeChars (s.flatMap f) = s.flatMap fun c => escapeChars (f c) := by
  simp only [escapeChars, replace_flatMap]

theorem escapeChars_singleton (c : Char) : escapeChars [c] = escapeChar c := by
  by_cases h : c = '\\' ∨ c = '"' ∨ c = '\n' ∨ c = '\r' ∨ c = '<' ∨ c = '>'
  · obtain rfl | rfl | rfl | rfl | rfl | rfl := h <;> decide
  · -- any other character passes through all six replacements
    simp only [not_or] at h
    simp [escapeChars, replace, escapeChar, h]

theorem escapeChars_eq_flatMap (s : List Char) : escapeChars s = s.flatMap escapeChar := by
  calc escapeChars s
      = escapeChars (s.flatMap fun c => [c]) := by simp
    _ = s.flatMap fun c => escapeChars [c] := escapeChars_flatMap _ s
    _ = s.flatMap escapeChar := by rw [funext escapeChars_singleton]

theorem Sealed.escapeChar_append (hs : Sealed s) (c : Char) : Sealed (escapeChar c ++ s) := by
  unfold escapeChar
  split
  · next h =>
    have : c ≠ '\n' := by
      rintro rfl
      simp at h
    exact .taken this hs
  · next h =>
    simp only [not_or] at h
    split
    · exact .taken (by decide) hs
    · next hn =>
      split
      · exact hs
      · exact .plain h.1 h.2.1 hn hs

theorem sealed_flatMap (s : List Char) : Sealed (s.flatMap escapeChar) := by
  induction s with
  | nil => exact .nil
  | cons c s ih => exact ih.escapeChar_append c

theorem escapeChar_ne_nil (hc : c ≠ '\r') : escapeChar c ≠ [] := by
  unfold escapeChar
  grind

theorem escapeChar_append_inj (hc : c ≠ '\r') (hd : d ≠ '\r')
    (h : escapeChar c ++ s = escapeChar d ++ t) : c = d ∧ s = t := by
  unfold escapeChar at h
  grind

theorem flatMap_escapeChar_inj (hs : '\r' ∉ s) (ht : '\r' ∉ t)
    (h : s.flatMap escapeChar = t.flatMap escapeChar) : s = t := by
  induction s generalizing t with
  | nil =>
    cases t with
    | nil => rfl
    | cons d t => simp [escapeChar_ne_nil (List.ne_of_not_mem_cons ht).symm] at h
  | cons c s ih =>
    have hc := (List.ne_of_not_mem_cons hs).symm
    cases t with
    | nil => simp [escapeChar_ne_nil hc] at h
    | cons d t =>
      have hd := (List.ne_of_not_mem_cons ht).symm
      obtain ⟨rfl, hst⟩ := escapeChar_append_inj hc hd h
      rw [ih (List.not_mem_of_not_mem_cons hs) (List.not_mem_of_not_mem_cons ht) hst]

theorem toList_escape (s : String) : (escape s).toList = s.toList.flatMap escapeChar := by
  rw [escape, String.toList_ofList, escapeChars_eq_flatMap]

/-- Escaping works character by character, leaves nothing that ends the quoted text or its line, and
loses only carriage returns. -/
theorem escape_seals (s : String) :
    (escape s).toList = s.toList.flatMap escapeChar ∧ Sealed (escape s).toList ∧
      ∀ t : String, '\r' ∉ s.toList → '\r' ∉ t.toList → escape s = escape t → s = t := by
  refine ⟨toList_escape s, toList_escape s ▸ sealed_flatMap _, fun t hs ht h => ?_⟩
  apply String.toList_inj.1
  apply flatMap_escapeChar_inj hs ht
  rw [← toList_escape, ← toList_escape, h]

/-- A newline, and a backslash before an `n`. -/
theorem escape_newline_ne_slash : escape "<\n" = "\\<\\n" ∧ escape "<\n" ≠ escape "<\\n" := by
  refine ⟨by decide +kernel, fun h => ?_⟩
  have := (escape_seals "<\n").2.2 "<\\n" (by decide) (by decide) h
  exact absurd this (by decide)

end Dot

end StackLift
