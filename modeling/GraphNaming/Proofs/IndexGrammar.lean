import GraphNaming.Proofs.NumberedNames

/-!
# How an index is read

An indexed alias is a base, a colon and a run of decimal digits. The digits hold no colon, so the
last colon is the only place to split at, whatever the base looks like. A digit beyond those of
ASCII is none: its bytes are not those of digits.

* `IndexedAlias.Spells`: the parts make up the name.
* `IndexedAlias.split?_eq_some_iff`: what splits, and into which parts.
* `IndexedAlias.cutLast?_eq_some_iff`: what the last stop divides.
* `IndexedAlias.hasDigitBytes_iff`: a text has the bytes of digits just when it consists of digits.
* `IndexedAlias.splits_exactly`: an alias is read in one way, from whichever end.
-/

namespace GraphNaming.IndexedAlias

/-- The parts are those of an indexed alias, and `name` is that alias. -/
structure Spells (parts : IndexedAlias) (name : String) : Prop extends parts.Valid where
  text : parts.text = name

variable {parts : IndexedAlias} {name : String}

theorem Spells.toList (h : parts.Spells name) :
    name.toList = parts.base.toList ++ ':' :: parts.index.toList := by
  rw [← h.text, toList_text]

/-! ## From the end -/

/-- The digits at the end, the colon and what stands before it are the whole name. -/
theorem text_of_split? (h : split? name = some parts) : parts.text = name := by
  have hname : name.toList.reverse.takeWhile Char.isDigit ++
      name.toList.reverse.dropWhile Char.isDigit = name.toList.reverse :=
    List.takeWhile_append_dropWhile
  simp only [split?] at h
  split at h
  · next base hbase =>
    split at h
    · cases h
    · cases h
      rw [hbase] at hname
      refine String.toList_inj.1 (List.reverse_injective ?_)
      simpa [toList_text] using hname
  · cases h

theorem split?_eq_some_iff : split? name = some parts ↔ parts.Spells name :=
  ⟨fun h => ⟨valid_of_split? h, text_of_split? h⟩, fun h => h.text ▸ split?_text h.toValid⟩

/-! ## From the last colon -/

section Cut

variable {stop : Char} {text before after : List Char}

theorem cutLast?_eq_none_iff : cutLast? stop text = none ↔ stop ∉ text := by
  induction text with
  | nil => simp [cutLast?]
  | cons c rest ih =>
    rw [cutLast?, List.mem_cons, not_or]
    cases hrest : cutLast? stop rest with
    | none =>
      have hnot : stop ∉ rest := ih.1 hrest
      simp [hnot, eq_comm]
    | some cut =>
      have hmem : stop ∈ rest := Classical.not_not.1 fun hnot => by
        rw [ih.2 hnot] at hrest
        cases hrest
      simp [hmem]

/-- After the stop that divides a text there is no other. -/
theorem of_cutLast? (h : cutLast? stop text = some (before, after)) :
    text = before ++ stop :: after ∧ stop ∉ after := by
  induction text generalizing before with
  | nil => cases h
  | cons c rest ih =>
    rw [cutLast?] at h
    cases hrest : cutLast? stop rest with
    | none =>
      simp only [hrest, Option.ite_none_right_eq_some, Option.some.injEq, Prod.mk.injEq] at h
      obtain ⟨rfl, rfl, rfl⟩ := h
      exact ⟨rfl, cutLast?_eq_none_iff.1 hrest⟩
    | some cut =>
      simp only [hrest, Option.some.injEq, Prod.mk.injEq] at h
      obtain ⟨rfl, rfl⟩ := h
      obtain ⟨rfl, hnot⟩ := ih hrest
      exact ⟨rfl, hnot⟩

theorem cutLast?_append (before : List Char) (hnot : stop ∉ after) :
    cutLast? stop (before ++ stop :: after) = some (before, after) := by
  induction before with
  | nil => simp [cutLast?, cutLast?_eq_none_iff.2 hnot]
  | cons c before ih => rw [List.cons_append, cutLast?, ih]

end Cut

/-! ## Bytes of digits -/

/-- Beyond ASCII, the first byte of a character is larger than those of all digits. -/
theorem digitBytes_utf8EncodeChar_iff {c : Char} :
    (∀ byte ∈ String.utf8EncodeChar c, 48 ≤ byte ∧ byte ≤ 57) ↔ c.isDigit = true := by
  have hdigit : c.isDigit = true ↔ 48 ≤ c.toNat ∧ c.toNat ≤ 57 := Char.isDigit_iff_toNat
  have hsize : c.toNat < 0x110000 := by
    have hvalid := c.valid
    rw [UInt32.isValidChar, Nat.isValidChar, Char.toNat_val] at hvalid
    omega
  simp only [hdigit, String.utf8EncodeChar, Char.toNat_val, UInt8.le_iff_toNat_le]
  by_cases hascii : c.toNat ≤ 127
  · rw [if_pos hascii, List.forall_mem_singleton, UInt8.toNat_ofNat']
    have hbyte : c.toNat % 2 ^ 8 = c.toNat := Nat.mod_eq_of_lt (by omega)
    rw [hbyte]
    rfl
  · rw [if_neg hascii]
    -- The first byte of a longer encoding is at least 192.
    have hlarge {n : Nat} (hn : 57 < n) (hn' : n < 256) :
        ¬ (UInt8.ofNat n).toNat ≤ (57 : UInt8).toNat := by
      rw [UInt8.toNat_ofNat', Nat.mod_eq_of_lt hn']
      exact Nat.not_le.2 hn
    refine iff_of_false (fun h => ?_) (by omega)
    split_ifs at h
    · exact hlarge (by omega) (by omega) (h _ List.mem_cons_self).2
    · exact hlarge (by omega) (by omega) (h _ List.mem_cons_self).2
    · exact hlarge (by omega) (by omega) (h _ List.mem_cons_self).2

theorem hasDigitBytes_iff {text : String} :
    hasDigitBytes text = true ↔ ∀ c ∈ text.toList, c.isDigit = true := by
  have hbytes : text.toUTF8.data.toList = text.toList.flatMap String.utf8EncodeChar := by
    rw [String.toUTF8_eq_toByteArray, ← String.utf8Encode_toList, List.utf8Encode,
      List.data_toByteArray]
  rw [hasDigitBytes, ← Array.all_toList, hbytes, List.all_flatMap]
  simp [← digitBytes_utf8EncodeChar_iff]

/-! ## Both ways -/

theorem colon_not_mem (h : parts.Valid) : ':' ∉ parts.index.toList := fun hm =>
  absurd (h.digits ':' hm) (by decide)

theorem splitAtColon?_eq_some_iff : splitAtColon? name = some parts ↔ parts.Spells name := by
  simp only [splitAtColon?, Option.bind_eq_bind, Option.bind_eq_some_iff, Prod.exists]
  constructor
  · rintro ⟨before, after, hcut, h⟩
    obtain ⟨hname, -⟩ := of_cutLast? hcut
    split at h
    · cases h
    · next hparts =>
      cases h
      rw [not_or, not_or, Bool.not_eq_false] at hparts
      obtain ⟨hbase, hindex, hbytes⟩ := hparts
      refine ⟨⟨hbase, hindex, hasDigitBytes_iff.1 hbytes⟩, String.toList_inj.1 ?_⟩
      rw [hname, toList_text, String.toList_ofList, String.toList_ofList]
  · intro h
    refine ⟨parts.base.toList, parts.index.toList, ?_, ?_⟩
    · rw [h.toList]
      exact cutLast?_append _ (colon_not_mem h.toValid)
    · have hbytes := hasDigitBytes_iff.2 h.digits
      simp [h.base_ne, h.index_ne, hbytes]

/-- The part of a name after its last colon is an index, or no part is. -/
theorem splitAtColon?_eq (name : String) : splitAtColon? name = split? name :=
  Option.ext fun _ => splitAtColon?_eq_some_iff.trans split?_eq_some_iff.symm

/-! ## Indexed aliases -/

/-- A name splits into a base and an index just when it is the two with a colon between them. There
is one way at most to split it, the parts joined again are the name, and every base and index that
are joined split again, also if the base has colons or an index itself. It is the same to look for
the last colon first, and at the bytes of what follows it. -/
theorem splits_exactly :
    (∀ name parts, split? name = some parts ↔ parts.Spells name) ∧
    (∀ (name : String) (parts parts' : IndexedAlias), parts.Spells name → parts'.Spells name →
      parts = parts') ∧
    (∀ name parts, split? name = some parts → parts.base ++ ":" ++ parts.index = name) ∧
    (∀ base index : String, base ≠ "" → index ≠ "" → (∀ c ∈ index.toList, '0' ≤ c ∧ c ≤ '9') →
      split? (base ++ ":" ++ index) = some ⟨base, index⟩) ∧
    ∀ name, splitAtColon? name = split? name := by
  refine ⟨fun _ _ => split?_eq_some_iff, fun name parts parts' h h' => ?_, fun name parts h => ?_,
    fun base index hbase hindex hdigits => ?_, splitAtColon?_eq⟩
  · exact Option.some.inj ((split?_eq_some_iff.2 h).symm.trans (split?_eq_some_iff.2 h'))
  · rw [← text_of_split? h, text, tail, String.append_assoc]
  · refine split?_eq_some_iff.2 ⟨⟨hbase, hindex, fun c hc => ?_⟩, ?_⟩
    · obtain ⟨hlow, hhigh⟩ := hdigits c hc
      simpa [Char.isDigit, Char.le_def] using And.intro hlow hhigh
    · rw [text, tail, String.append_assoc]

/-- A base may end in an index itself: the last one alone splits off. A digit that is not one of
ASCII makes no index. -/
theorem splits_exactly_nested :
    Spells ⟨"a:1", "12"⟩ "a:1:12" ∧ split? "a:1:12" = some ⟨"a:1", "12"⟩ ∧
      ¬ Spells ⟨"a", "1:12"⟩ "a:1:12" ∧ split? "a:\u0663" = none := by
  obtain ⟨hiff, hunique, -, hjoined, hcolon⟩ := splits_exactly
  have hsplit : split? "a:1:12" = some ⟨"a:1", "12"⟩ :=
    hjoined "a:1" "12" (by decide) (by decide) (by simp)
  have hspells := (hiff _ _).1 hsplit
  refine ⟨hspells, hsplit, fun h => ?_, ?_⟩
  · exact absurd (hunique _ _ _ h hspells) (by decide)
  · rw [← hcolon]
    decide +kernel

end GraphNaming.IndexedAlias
