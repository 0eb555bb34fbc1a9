import GraphNaming.Proofs.Numbering
import Mathlib.Data.List.TakeWhile

/-!
# Numbers at the end of a name

The digits at the end of a name, and the character before them, tell a number from an index.

* `IndexedAlias.Valid`: the parts of an alias that has an index; `valid_of_split?`, `split?_text`:
  what is split is such an alias, and each splits into its parts.
* `split?_numberedName`: a number at the end of a name is not an index, whatever the name.
* `split?_numberedName_tail`: a number between base and index becomes part of the base.
* `numberedName_inj`: a name with a number determines both.
-/

namespace GraphNaming

/-! ## Reading from the end -/

section Reversed

variable {before digits : List Char} {stop : Char} (hstop : stop.isDigit = false)
  (hdigits : ∀ c ∈ digits, c.isDigit = true)
include hstop hdigits

/-- From the end, a name is read up to the last character that is not a digit. -/
theorem takeWhile_isDigit_reverse :
    (before ++ stop :: digits).reverse.takeWhile Char.isDigit = digits.reverse := by
  have hreversed : ∀ c ∈ digits.reverse, c.isDigit = true := by simpa using hdigits
  rw [List.reverse_append, List.reverse_cons, List.append_assoc, List.singleton_append,
    List.takeWhile_append_of_pos hreversed, List.takeWhile_cons, hstop]
  simp

theorem dropWhile_isDigit_reverse :
    (before ++ stop :: digits).reverse.dropWhile Char.isDigit = stop :: before.reverse := by
  have hreversed : ∀ c ∈ digits.reverse, c.isDigit = true := by simpa using hdigits
  rw [List.reverse_append, List.reverse_cons, List.append_assoc, List.singleton_append,
    List.dropWhile_append_of_pos hreversed, List.dropWhile_cons, hstop]
  simp

end Reversed

theorem isDigit_of_mem_repr {n : Nat} : ∀ c ∈ n.repr.toList, c.isDigit = true := by
  intro c hc
  rw [Nat.toList_repr] at hc
  exact Nat.isDigit_of_mem_toDigits (by decide) (by decide) hc

theorem toList_numberedName (base : String) (n : Nat) :
    (numberedName base "" n).toList = base.toList ++ '_' :: n.repr.toList := by
  simp [numberedName, String.toList_append]

/-! ## Indices -/

namespace IndexedAlias

/-- There is a base, and the index is a number in decimal digits. -/
structure Valid (parts : IndexedAlias) : Prop where
  base_ne : parts.base ≠ ""
  index_ne : parts.index ≠ ""
  digits : ∀ c ∈ parts.index.toList, c.isDigit = true

variable {parts : IndexedAlias} {name : String}

theorem valid_of_split? (h : split? name = some parts) : parts.Valid := by
  simp only [split?] at h
  split at h
  · split at h
    · cases h
    · next base _ hne =>
      obtain ⟨hdigits, hbase⟩ := not_or.1 hne
      cases h
      exact ⟨by simpa using hbase, by simpa using hdigits, fun c hc =>
        List.mem_takeWhile_imp (List.mem_reverse.1 (by simpa using hc))⟩
  · cases h

theorem toList_text (parts : IndexedAlias) :
    parts.text.toList = parts.base.toList ++ ':' :: parts.index.toList := by
  simp [text, tail, String.toList_append]

/-- Whatever the base looks like, an index splits off. -/
theorem split?_text (h : parts.Valid) : split? parts.text = some parts := by
  have hstop : ':'.isDigit = false := by decide
  have hbase : ¬ parts.base.toList.reverse = [] := by simpa using h.base_ne
  have hindex : ¬ parts.index.toList.reverse = [] := by simpa using h.index_ne
  simp only [split?, toList_text, takeWhile_isDigit_reverse hstop h.digits,
    dropWhile_isDigit_reverse hstop h.digits, if_neg (not_or.2 ⟨hindex, hbase⟩)]
  simp

/-- A number at the end of a name is not an index: the character before it is not a colon. -/
theorem split?_numberedName (base : String) (n : Nat) :
    split? (numberedName base "" n) = none := by
  have hstop : '_'.isDigit = false := by decide
  simp only [split?, toList_numberedName, takeWhile_isDigit_reverse hstop isDigit_of_mem_repr,
    dropWhile_isDigit_reverse hstop isDigit_of_mem_repr]
  simp

/-- A number between base and index becomes part of the base. -/
theorem split?_numberedName_tail (h : parts.Valid) (n : Nat) :
    split? (numberedName parts.base parts.tail n) =
      some ⟨numberedName parts.base "" n, parts.index⟩ := by
  have htext : numberedName parts.base parts.tail n =
      (⟨numberedName parts.base "" n, parts.index⟩ : IndexedAlias).text := by
    simp [numberedName, text, tail]
  rw [htext]
  exact split?_text ⟨by simp [numberedName], h.index_ne, h.digits⟩

end IndexedAlias

/-! ## Numbers -/

/-- The number is what follows the last underscore. -/
theorem numberedName_inj {base base' : String} {n n' : Nat} :
    numberedName base "" n = numberedName base' "" n' ↔ base = base' ∧ n = n' := by
  refine ⟨fun h => ?_, fun ⟨hbase, hn⟩ => hbase ▸ hn ▸ rfl⟩
  have hstop : '_'.isDigit = false := by decide
  have hbefore := congrArg (fun name => name.toList.reverse.dropWhile Char.isDigit) h
  simp only [toList_numberedName, dropWhile_isDigit_reverse hstop isDigit_of_mem_repr,
    List.reverse_inj, List.cons.injEq, true_and, String.toList_inj] at hbefore
  obtain rfl := hbefore
  exact ⟨rfl, Namespace.numberedName_injective base "" h⟩

end GraphNaming
